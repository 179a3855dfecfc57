import Aomp.Arguments.ArrayBounds
import Aomp.Arguments.Calls

/-!
# Strings in the buffer

`__strlen_max` measures a string with its NUL, up to 1024 bytes, and the copy has as many. So a
string keeps its NUL only if this is one of its first 1024 bytes; else the bytes of the next string
follow it in the buffer.
-/
namespace Aomp.Arguments

open Foundations

def maxLength : ℕ := 1023

/-- The pointer is that of a part of the buffer, and there the string of the device, cut to its
first characters, ends with a NUL. -/
def StringExpr.Terminated (e : StringExpr) (mem : ℕ → Byte) (buf : ℕ) (region : Store) (w : ℕ) : Prop :=
  w = buf + region.offset ∧ ∃ s, CString e.instr s ∧ CString (fun i => mem (w + i)) (s.take maxLength) ∧
    (s.take maxLength).length < region.bytes.length

def Regions (mem : ℕ → Byte) (buf : ℕ) (stores : List Store) (args : List Arg) (ws : List ℕ) : Prop :=
  List.Forall₂ (fun a w => ∀ s, a = .string s →
    ∃ region ∈ stores, s.Terminated mem buf region w) args ws

def stringWords : List Arg → List ℕ → List ℕ
  | .string _ :: args, w :: ws => w :: stringWords args ws
  | _ :: args, _ :: ws => stringWords args ws
  | _, _ => []

/-- The parts of the buffer are distinct, and each string that the host passes on is terminated
inside of its own part. -/
def Call.StringsSeparate (c : Call) : Prop :=
  ∃ e, emitHostexecAllocAndExecFns c.passed = some e ∧
    (∀ s ∈ e.stores, s.finish ≤ e.BufferLen) ∧
    (e.stores.Pairwise fun s t => s.finish ≤ t.offset) ∧
    ∀ (malloc : ℕ → Bool) (mem₀ mem : ℕ → Byte) (buf : ℕ), (∀ n, malloc n = true) → 8 ∣ buf →
      buf + e.BufferLen < 2 ^ 64 →
      (∀ i < e.BufferLen, mem (buf + i) = Store.writeAll buf mem₀ e.stores (buf + i)) →
      ∃ ws, c.unpack malloc mem buf e.BufferLen = some ws ∧
        Regions mem buf e.stores c.passed ws ∧ (stringWords c.passed ws).Nodup

/-- The string has its NUL among the bytes that are copied. A literal is copied whole, and stands
for a pointer variable that it initializes. -/
def StringExpr.Short : StringExpr → Prop
  | .literal SL => ∃ s, CString (fun i => SL.getD i 0) s ∧ s.length ≤ maxLength
  | .rvalue instr | .declRef _ none instr => ∃ s, CString instr s ∧ s.length ≤ maxLength
  | .declRef false (some SL) instr =>
    ∃ s t, CString instr s ∧ CString (fun i => SL.getD i 0) t ∧ t = s.take maxLength
  | .declRef true (some _) _ | .lvalue _ => False

/-- The strings are short, and the lengths and the number of arguments are in the limits. -/
structure Call.Separable (c : Call) : Prop where
  short : ∀ e, Arg.string e ∈ c.passed → e.Short
  fits : c.Fits
  callable : c.Callable

variable {malloc : ℕ → Bool} {mem mem₀ instr : ℕ → Byte} {buf bufsz str : ℕ} {s t text : List Byte}
  {e : StringExpr} {f : Entry} {args : List Arg} {entries : List Entry}

theorem CString.unique (hs : CString instr s) (ht : CString instr t) : s = t := by
  have hlength : s.length = t.length := by
    rcases lt_trichotomy s.length t.length with hlt | heq | hlt
    · exact absurd hs.2 (ht.1 _ hlt).2
    · exact heq
    · exact absurd ht.2 (hs.1 _ hlt).2
  apply List.ext_getElem hlength
  intro i hi hi'
  have hsi := (hs.1 i hi).1
  have hti := (ht.1 i hi').1
  rw [List.getD_eq_getElem _ _ hi] at hsi
  rw [List.getD_eq_getElem _ _ hi'] at hti
  exact hsi.symm.trans hti

theorem CString.congr (hs : CString instr s) {instr' : ℕ → Byte}
    (h : ∀ i ≤ s.length, instr' i = instr i) : CString instr' s := by
  refine ⟨fun i hi => ?_, (h _ le_rfl).trans hs.2⟩
  rw [h i hi.le]
  exact hs.1 i hi

theorem copied_getD {n i : ℕ} (hi : i < n) : ((List.range n).map instr).getD i 0 = instr i := by
  simp [hi]

theorem strlen_max_long (hs : CString instr s) (hlong : maxLength < s.length) :
    strlen_max instr 1024 = 1024 := by
  have hfind : ((List.range 1024).find? fun i => instr i = 0) = none := by
    rw [List.find?_eq_none]
    intro i hi
    have hi : i < 1024 := List.mem_range.mp hi
    have hne := (hs.1 i (by unfold maxLength at hlong; omega)).2
    simpa using hne
  unfold strlen_max
  rw [hfind]

theorem terminated_variable (hs : CString instr s) (hshort : s.length ≤ maxLength)
    (hcopy : ∀ i < strlen_max instr 1024, mem i = instr i) :
    CString mem (s.take maxLength) ∧ (s.take maxLength).length < strlen_max instr 1024 := by
  have hlength : strlen_max instr 1024 = s.length + 1 :=
    strlen_max_eq hs (by unfold maxLength at hshort; omega)
  rw [hlength] at hcopy ⊢
  rw [List.take_of_length_le hshort]
  exact ⟨hs.congr fun i hi => hcopy i (by omega), Nat.lt_succ_self _⟩

theorem not_terminated_variable (hs : CString instr s) (hlong : maxLength < s.length)
    (hcopy : ∀ i < strlen_max instr 1024, mem i = instr i) : ¬ CString mem (s.take maxLength) := by
  rw [strlen_max_long hs hlong] at hcopy
  rintro ⟨-, hend⟩
  rw [List.length_take, Nat.min_eq_left hlong.le] at hend
  have hlast := hcopy maxLength (by decide)
  exact (hs.1 maxLength hlong).2 (hlast.symm.trans hend)

theorem terminated_literal {SL : List Byte} (ht : CString (fun i => SL.getD i 0) t)
    (hcopy : ∀ i < SL.length + 1, mem i = (SL ++ [0]).getD i 0) :
    CString mem t ∧ t.length < SL.length + 1 := by
  have hlength : t.length ≤ SL.length := by
    by_contra hlt
    exact (ht.1 SL.length (by omega)).2 (List.getD_eq_default _ _ le_rfl)
  refine ⟨ht.congr fun i hi => ?_, by omega⟩
  rw [hcopy i (by omega), getD_append_nul]

theorem exists_literal_text (SL : List Byte) : ∃ t, CString (fun i => SL.getD i 0) t := by
  have hend : SL.getD SL.length 0 = 0 := List.getD_eq_default _ _ le_rfl
  obtain ⟨t, ht, -⟩ := @exists_cstring (fun i => SL.getD i 0) SL.length hend
  exact ⟨t, ht⟩

/-- What the fourth pass copies: the first bytes of a variable string, or a literal. -/
theorem copied_cases (hcopied : e.copied = some text)
    (hcopy : ∀ i < text.length, mem i = text.getD i 0) :
    ((e.Short ↔ ∃ s, CString e.instr s ∧ s.length ≤ maxLength) ∧
      text.length = strlen_max e.instr 1024 ∧ ∀ i < strlen_max e.instr 1024, mem i = e.instr i) ∨
    ∃ t, CString mem t ∧ t.length < text.length ∧
      (e.Short ↔ ∃ s, CString e.instr s ∧ t = s.take maxLength) := by
  have hliteral : ∀ SL : List Byte, SL ++ [0] = text → ∃ t, CString (fun i => SL.getD i 0) t ∧
      CString mem t ∧ t.length < text.length := by
    rintro SL rfl
    rw [List.length_append, List.length_singleton] at hcopy ⊢
    obtain ⟨t, ht⟩ := exists_literal_text SL
    exact ⟨t, ht, terminated_literal ht hcopy⟩
  have hvariable : ∀ instr, (List.range (strlen_max instr 1024)).map instr = text →
      text.length = strlen_max instr 1024 ∧ ∀ i < strlen_max instr 1024, mem i = instr i := by
    rintro instr rfl
    have hlength : ((List.range (strlen_max instr 1024)).map instr).length = strlen_max instr 1024 := by
      simp
    rw [hlength] at hcopy ⊢
    exact ⟨rfl, fun i hi => (hcopy i hi).trans (copied_getD hi)⟩
  cases e with
  | literal SL =>
    obtain ⟨t, ht, hmem, hlength⟩ := hliteral SL (Option.some.inj hcopied)
    refine .inr ⟨t, hmem, hlength, ?_⟩
    constructor
    · rintro ⟨s, hs, hshort⟩
      exact ⟨s, hs, by rw [List.take_of_length_le hshort]; exact ht.unique hs⟩
    · rintro ⟨s, hs, hcut⟩
      obtain rfl : t = s := ht.unique hs
      exact ⟨t, hs, List.take_eq_self_iff t |>.mp hcut.symm⟩
  | rvalue instr =>
    exact .inl ⟨Iff.rfl, hvariable instr (Option.some.inj hcopied)⟩
  | declRef isConstantArrayType getInit instr =>
    cases getInit with
    | none => exact .inl ⟨Iff.rfl, hvariable instr (Option.some.inj hcopied)⟩
    | some SL =>
      cases isConstantArrayType with
      | true => cases hcopied
      | false =>
        obtain ⟨t, ht, hmem, hlength⟩ := hliteral SL (Option.some.inj hcopied)
        refine .inr ⟨t, hmem, hlength, ?_⟩
        constructor
        · rintro ⟨s, t', hs, ht', rfl⟩
          exact ⟨s, hs, ht.unique ht'⟩
        · rintro ⟨s, hs, hcut⟩
          exact ⟨s, t, hs, ht, hcut⟩
  | lvalue instr => cases hcopied

theorem short_of_terminated (hcopied : e.copied = some text)
    (hcopy : ∀ i < text.length, mem i = text.getD i 0) (hs : CString e.instr s)
    (hmem : CString mem (s.take maxLength)) : e.Short := by
  rcases copied_cases hcopied hcopy with ⟨hiff, -, hfirst⟩ | ⟨t, ht, -, hiff⟩
  · refine hiff.mpr ⟨s, hs, ?_⟩
    by_contra hlong
    exact not_terminated_variable hs (not_le.mp hlong) hfirst hmem
  · exact hiff.mpr ⟨s, hs, ht.unique hmem⟩

theorem terminated_of_short (hcopied : e.copied = some text)
    (hcopy : ∀ i < text.length, mem i = text.getD i 0) (hshort : e.Short) :
    ∃ s, CString e.instr s ∧ CString mem (s.take maxLength) ∧
      (s.take maxLength).length < text.length := by
  rcases copied_cases hcopied hcopy with ⟨hiff, hlength, hfirst⟩ | ⟨t, ht, hlength, hiff⟩
  · obtain ⟨s, hs, hle⟩ := hiff.mp hshort
    rw [hlength]
    exact ⟨s, hs, terminated_variable hs hle hfirst⟩
  · obtain ⟨s, hs, rfl⟩ := hiff.mp hshort
    exact ⟨s, hs, ht, hlength⟩

theorem length_copied_pos (hcopied : e.copied = some text) : 0 < text.length := by
  have hcopy : ∀ i < text.length, (fun i => text.getD i 0) i = text.getD i 0 := fun _ _ => rfl
  rcases copied_cases hcopied hcopy with
    ⟨-, hlength, -⟩ | ⟨t, -, hlength, -⟩
  · rw [hlength]
    unfold strlen_max
    split <;> omega
  · omega

theorem Entry.word_string (harg : f.arg = .string e) : f.word buf str = (.gp, buf + str) := by
  unfold Entry.word
  rw [harg]

theorem region_iff {stores : List Store} (hentry : (Arg.string e).entry = some f)
    (htext : Store.Held ⟨str, f.text⟩ mem buf) (hstore : ⟨str, f.text⟩ ∈ stores) :
    (∃ region ∈ stores, e.Terminated mem buf region (buf + str)) ↔ e.Short := by
  obtain ⟨text, hcopied, rfl⟩ := Option.map_eq_some_iff.mp hentry
  have hcopy : ∀ i < text.length, mem (buf + str + i) = text.getD i 0 := by
    intro i hi
    rw [List.getD_eq_getElem _ _ hi]
    exact htext i hi
  constructor
  · rintro ⟨region, -, -, s, hs, hmem, -⟩
    exact short_of_terminated hcopied hcopy hs hmem
  · intro hshort
    obtain ⟨s, hs, hmem, hlength⟩ := terminated_of_short hcopied hcopy hshort
    exact ⟨_, hstore, rfl, s, hs, hmem, hlength⟩

theorem regions_iff {stores : List Store} {key data : ℕ} (hlowers : Lowers args entries)
    (hlaid : Laid mem buf key data str entries) (hstores : ∀ s ∈ copyStrings str entries, s ∈ stores) :
    Regions mem buf stores args ((words buf str entries).map Prod.snd) ↔
      ∀ e, Arg.string e ∈ args → e.Short := by
  induction hlowers generalizing key data str with
  | nil => simp [Regions, words]
  | @cons a f args entries hf _ ih =>
    obtain ⟨-, -, htext, hrest⟩ := hlaid
    have harg := Arg.entry_arg hf
    unfold Regions at ih ⊢
    rw [words, List.map_cons, List.forall₂_cons]
    cases a with
    | string e =>
      have hcopies : copyStrings str (f :: entries) =
          ⟨str, f.text⟩ :: copyStrings (str + f.text.length) entries := by
        simp only [copyStrings, harg]
      rw [hcopies] at hstores
      have htail := ih hrest fun s hs => hstores s (List.mem_cons_of_mem _ hs)
      have hhead := region_iff hf htext (hstores _ List.mem_cons_self)
      have hword : (f.word buf str).2 = buf + str := by rw [Entry.word_string harg]
      simp only [hword, htail, Arg.string.injEq, forall_eq', hhead, List.mem_cons, forall_eq_or_imp]
    | int32 v | int64 v | double v | pointer v =>
      have hnil : f.text = [] := by
        obtain rfl := Option.some.inj hf
        rfl
      rw [hnil, List.length_nil, add_zero] at hrest ⊢
      have hcopies : copyStrings str (f :: entries) = copyStrings str entries := by
        simp only [copyStrings, harg]
      rw [hcopies] at hstores
      rw [ih hrest hstores]
      simp

/-- The strings begin one behind the other. -/
theorem stringWords_pairwise (hlowers : Lowers args entries) :
    (∀ w ∈ stringWords args ((words buf str entries).map Prod.snd), buf + str ≤ w) ∧
      (stringWords args ((words buf str entries).map Prod.snd)).Pairwise (· < ·) := by
  induction hlowers generalizing str with
  | nil => simp [stringWords]
  | @cons a f args entries hf _ ih =>
    have harg := Arg.entry_arg hf
    obtain ⟨hle, hlt⟩ := @ih (str + f.text.length)
    rw [words, List.map_cons]
    cases a with
    | string e =>
      obtain ⟨text, hcopied, rfl⟩ := Option.map_eq_some_iff.mp hf
      have hpos := length_copied_pos hcopied
      simp only [stringWords, List.mem_cons, forall_eq_or_imp, List.pairwise_cons,
        Entry.word_string harg]
      refine ⟨⟨le_rfl, fun w hw => ?_⟩, fun w hw => ?_, hlt⟩
      · exact (Nat.add_le_add_left (Nat.le_add_right _ _) buf).trans (hle w hw)
      · have hnext := hle w hw
        dsimp only at hnext
        omega
    | int32 v | int64 v | double v | pointer v =>
      simp only [stringWords]
      exact ⟨fun w hw => (Nat.add_le_add_left (Nat.le_add_right _ _) buf).trans (hle w hw), hlt⟩

theorem dataStores_last (off : ℕ) (hne : entries ≠ []) :
    ∃ s ∈ dataStores off entries, s.finish = dataEnd off entries := by
  induction entries generalizing off with
  | nil => exact absurd rfl hne
  | cons f entries ih =>
    rw [dataStores, dataEnd]
    by_cases hnil : entries = []
    · subst hnil
      exact ⟨_, List.mem_cons_self, by simp [Store.finish, dataEnd, length_leBytes]⟩
    · obtain ⟨s, hs, hfinish⟩ := ih (place off f + f.size) hnil
      exact ⟨s, List.mem_cons_of_mem _ hs, hfinish⟩

/-- With all stores inside of it the buffer is as long as its layout. -/
theorem buffer_of_inside (hentries : ∀ f ∈ entries, f.Lowered)
    (hpos : 0 < (entries.map fun f => f.text.length).sum)
    (hinside : ∀ s ∈ (emitEntries entries).stores, s.finish ≤ (emitEntries entries).BufferLen) :
    textEnd (dataLen entries) entries < 2 ^ 32 := by
  rw [emitEntries_layout] at hinside
  dsimp only at hinside
  have hlen : textEnd (dataLen entries) entries % 2 ^ 32 < 2 ^ 32 := Nat.mod_lt _ (by norm_num)
  have hne : entries ≠ [] := by
    rintro rfl
    simp at hpos
  obtain ⟨s, hs, hfinish⟩ := dataStores_last (4 * (entries.length + 2)) hne
  have hdata := hinside s (by simp [hs])
  have hlt : dataLen entries < 2 ^ 32 := (hfinish.symm.trans_le hdata).trans_lt hlen
  rw [Nat.mod_eq_of_lt hlt] at hinside
  obtain ⟨t, ht, hend⟩ := copyStrings_last (dataLen entries) hentries hpos
  exact (hend.symm.trans_le (hinside t (by simp [ht]))).trans_lt hlen

def layoutMemory (entries : List Entry) : ℕ → Byte :=
  Store.writeAll 0 (fun _ => 0) (layoutStores entries)

theorem header_of_layout (hentries : ∀ f ∈ entries, f.Lowered)
    (hbuffer : textEnd (dataLen entries) entries < 2 ^ 32) :
    readLE (layoutMemory entries) 0 4 = dataLen entries ∧
      readLE (layoutMemory entries) 4 4 = entries.length := by
  have hheld : ∀ s ∈ layoutStores entries,
      s.Held (layoutMemory entries) 0 :=
    (layoutStores_between hentries).held
  have hdata := dataLen_le_textEnd entries
  have hwords : 4 * (entries.length + 2) ≤ dataLen entries := le_dataEnd _ _
  have hread : ∀ off v, ⟨off, leBytes 4 v⟩ ∈ layoutStores entries → v < 2 ^ 32 →
      readLE (layoutMemory entries) off 4 = v := by
    intro off v hstore hv
    have hvalue := (hheld _ hstore).readLE
    rw [zero_add] at hvalue
    exact hvalue.trans (Nat.mod_eq_of_lt hv)
  exact ⟨hread 0 _ (by simp [layoutStores]) (by omega), hread 4 _ (by simp [layoutStores]) (by omega)⟩

theorem readInt_of_large {a n : ℕ} (hread : readLE mem a 4 = n) (hlarge : 2 ^ 31 ≤ n) (hn : n < 2 ^ 32) :
    readInt mem a = (n : ℤ) - 2 ^ 32 := by
  have hnat : (BitVec.ofNat 32 n).toNat = n := by
    rw [BitVec.toNat_ofNat]
    omega
  unfold readInt
  rw [hread, BitVec.toInt_eq_toNat_cond, hnat, if_neg (by omega)]
  norm_num

theorem strptr_of_large {n : ℕ} (hread : readLE mem 0 4 = n) (hlarge : 2 ^ 31 ≤ n) (hn : n < 2 ^ 32) :
    2 ^ 32 ≤ (header mem 0).cursor.strptr := by
  have hdatalen := readInt_of_large hread hlarge hn
  unfold header
  dsimp only
  rw [hdatalen]
  unfold sizeT
  omega

theorem fmtstr_of_printf {call : PrintCall} (h : hostrpc_printf malloc mem buf bufsz = .ok (some call)) :
    call.fmtstr = (header mem buf).cursor.strptr := by
  unfold hostrpc_printf at h
  dsimp only at h
  split_ifs at h
  · cases h
  · generalize hostrpc_pfBuildValist malloc mem _ _ = build at h
    cases build with
    | error e => cases h
    | ok v =>
      obtain rfl := Option.some.inj (Except.ok.inj h)
      rfl

theorem fmtstr_of_fprintf {call : PrintCall} (h : hostrpc_fprintf malloc mem buf = .ok call) :
    call.fmtstr = (header mem buf).cursor.strptr := by
  unfold hostrpc_fprintf at h
  dsimp only at h
  generalize hostrpc_pfBuildValist malloc mem _ _ = build at h
  cases build with
  | error e => cases h
  | ok v =>
    obtain rfl := Except.ok.inj h
    rfl

section

variable {c : Call} {ws : List ℕ}

theorem region_lt (hentries : ∀ f ∈ entries, f.Lowered)
    (hbuffer : textEnd (dataLen entries) entries < 2 ^ 32) {region : Store} {w : ℕ}
    (hregion : region ∈ layoutStores entries) (hterminated : e.Terminated mem 0 region w) : w < 2 ^ 32 := by
  have hbounds := ((layoutStores_between hentries).bounds region hregion).2
  have hw := hterminated.1
  unfold Store.finish at hbounds
  omega

/-- What is passed on shows that the call keeps to the limits. -/
theorem limits_of_unpack (hlowers : Lowers c.passed entries)
    (hbuffer : textEnd (dataLen entries) entries < 2 ^ 32)
    (hws : c.unpack malloc (layoutMemory entries) 0 bufsz = some ws)
    (hregions : Regions (layoutMemory entries) 0 (layoutStores entries) c.passed ws) :
    c.Callable ∧ dataLen entries < 2 ^ 31 := by
  have hentries := hlowers.lowered
  obtain ⟨hdatalen, hnumargs⟩ := header_of_layout hentries hbuffer
  have hdata := dataLen_le_textEnd entries
  have hfirst : ∀ (format : StringExpr) (w : ℕ), (∀ s, Arg.string format = .string s →
      ∃ region ∈ layoutStores entries, s.Terminated (layoutMemory entries) 0 region w) →
      w = (header (layoutMemory entries) 0).cursor.strptr → dataLen entries < 2 ^ 31 := by
    intro format w hregion hw
    obtain ⟨region, hmem, hterminated⟩ := hregion format rfl
    have hlt := region_lt hentries hbuffer hmem hterminated
    by_contra hlarge
    have hfar := strptr_of_large hdatalen (not_lt.mp hlarge) (by omega)
    omega
  cases c with
  | printf format args =>
    refine ⟨trivial, ?_⟩
    dsimp only [Call.unpack] at hws
    split at hws
    · rename_i call hcall
      obtain rfl := Option.some.inj hws
      obtain _ | ⟨hformat, -⟩ := hregions
      exact hfirst format _ hformat (fmtstr_of_printf hcall)
    · cases hws
  | fprintf stream format args =>
    refine ⟨trivial, ?_⟩
    dsimp only [Call.unpack] at hws
    split at hws
    · rename_i file fmtstr valist hcall
      obtain rfl := Option.some.inj hws
      obtain _ | ⟨-, _ | ⟨hformat, -⟩⟩ := hregions
      exact hfirst format _ hformat (fmtstr_of_fprintf hcall)
    · cases hws
  | hostexec fnptr args =>
    have hlength := List.Forall₂.length_eq hlowers
    dsimp only [Call.passed] at hlength
    rw [List.length_cons] at hlength
    dsimp only [Call.unpack] at hws
    split at hws
    · rename_i call hcall
      obtain ⟨hpos, hmax⟩ := fnptrArgs_of_call hcall
      have hwords : 4 * (entries.length + 2) ≤ dataLen entries := le_dataEnd _ _
      have hcount : fnptrArgs (layoutMemory entries) 0 = (entries.length : ℤ) - 1 := by
        unfold fnptrArgs header
        dsimp only
        rw [readInt_eq hnumargs (by omega)]
      have hlen := dataEnd_le (4 * (entries.length + 2)) entries
      have hmaxargs : MAXVARGS = 32 := rfl
      refine ⟨⟨?_, by omega⟩, lt_of_le_of_lt hlen (by omega)⟩
      rintro rfl
      rw [List.length_nil] at hlength
      omega
    · cases hws

theorem text_sum_pos (hlowers : Lowers args entries) (hstring : ∃ e, Arg.string e ∈ args) :
    0 < (entries.map fun f => f.text.length).sum := by
  induction hlowers with
  | nil => simp at hstring
  | @cons a f args entries hf _ ih =>
    rw [List.map_cons, List.sum_cons]
    obtain ⟨e, he⟩ := hstring
    rcases List.mem_cons.mp he with rfl | he
    · obtain ⟨text, hcopied, rfl⟩ := Option.map_eq_some_iff.mp hf
      exact Nat.add_pos_left (length_copied_pos hcopied) _
    · exact Nat.add_pos_right _ (ih ⟨e, he⟩)

theorem StringExpr.Short.exists_copied (h : e.Short) : ∃ text, e.copied = some text := by
  cases e with
  | literal SL | rvalue instr => exact ⟨_, rfl⟩
  | declRef isConstantArrayType getInit instr =>
    cases getInit with
    | none => exact ⟨_, rfl⟩
    | some SL =>
      cases isConstantArrayType with
      | true => exact h.elim
      | false => exact ⟨_, rfl⟩
  | lvalue instr => exact h.elim

theorem exists_entries (hshort : ∀ e, Arg.string e ∈ args → e.Short) :
    ∃ entries, Lowers args entries := by
  induction args with
  | nil => exact ⟨[], List.Forall₂.nil⟩
  | cons a args ih =>
    obtain ⟨entries, hentries⟩ := ih fun e he => hshort e (List.mem_cons_of_mem a he)
    obtain ⟨f, hf⟩ : ∃ f, a.entry = some f := by
      cases a with
      | string e =>
        obtain ⟨text, hcopied⟩ := (hshort e List.mem_cons_self).exists_copied
        exact ⟨⟨.string e, text⟩, by rw [Arg.entry, hcopied]; rfl⟩
      | int32 v | int64 v | double v | pointer v => exact ⟨_, rfl⟩
    exact ⟨f :: entries, List.Forall₂.cons hf hentries⟩

theorem copyStrings_subset : ∀ s ∈ copyStrings (dataLen entries) entries, s ∈ layoutStores entries :=
  fun _ hs => List.mem_append_right _ hs

theorem separable_of_separate (hstring : ∃ e, Arg.string e ∈ c.passed) (h : c.StringsSeparate) :
    c.Separable := by
  obtain ⟨e, hemit, hinside, -, hpassed⟩ := h
  obtain ⟨entries, hentries, rfl⟩ := Option.map_eq_some_iff.mp hemit
  have hlowers := lowers_of_mapM hentries
  have hbuffer := buffer_of_inside hlowers.lowered (text_sum_pos hlowers hstring) hinside
  rw [emitEntries_eq hbuffer] at hpassed
  obtain ⟨ws, hws, hregions, -⟩ := hpassed (fun _ => true) (fun _ => 0) (layoutMemory entries) 0
    (fun _ => rfl) (dvd_zero 8) (by dsimp only; omega) fun _ _ => rfl
  obtain ⟨hcallable, hdata⟩ := limits_of_unpack hlowers hbuffer hws hregions
  have hfits : Fits entries := ⟨hdata, hbuffer⟩
  have hreceived : Received (layoutMemory entries) 0 entries :=
    received_of_stores (dvd_zero 8) hfits (by omega) hlowers.lowered fun _ _ => rfl
  have hsz : textEnd (dataLen entries) entries ≠ 0 := by
    have hwords : 4 * (entries.length + 2) ≤ dataLen entries := le_dataEnd _ _
    have htext := dataLen_le_textEnd entries
    omega
  have hwords := unpack_words hreceived hlowers hcallable (fun _ => rfl) hsz
  obtain rfl := Option.some.inj (hwords.symm.trans hws)
  refine ⟨(regions_iff hlowers hreceived.laid copyStrings_subset).mp hregions, ?_, hcallable⟩
  intro entries' hentries'
  obtain rfl := Option.some.inj (hentries.symm.trans hentries')
  exact hfits

theorem separate_of_separable (h : c.Separable) : c.StringsSeparate := by
  obtain ⟨hshort, hfits, hcallable⟩ := h
  obtain ⟨entries, hlowers⟩ := exists_entries hshort
  have hfits := hfits entries hlowers.mapM_eq
  have hbetween := layoutStores_between hlowers.lowered
  refine ⟨⟨textEnd (dataLen entries) entries, layoutStores entries⟩, ?_,
    fun s hs => (hbetween.bounds s hs).2, hbetween.pairwise, ?_⟩
  · unfold emitHostexecAllocAndExecFns
    rw [hlowers.mapM_eq, Option.map_some, emitEntries_eq hfits.buffer]
  · intro malloc mem₀ mem buf hmalloc hbuf hspace hmem
    have hreceived : Received mem buf entries :=
      received_of_stores hbuf hfits hspace hlowers.lowered hmem
    have hsz : textEnd (dataLen entries) entries ≠ 0 := by
      have hwords : 4 * (entries.length + 2) ≤ dataLen entries := le_dataEnd _ _
      have htext := dataLen_le_textEnd entries
      omega
    refine ⟨_, unpack_words hreceived hlowers hcallable hmalloc hsz, ?_, ?_⟩
    · exact (regions_iff hlowers hreceived.laid copyStrings_subset).mpr hshort
    · exact (stringWords_pairwise hlowers).2.imp fun hlt => hlt.ne

/-- The strings of a call arrive separate and terminated if and only if each has its NUL among
the bytes that are copied, within the limits of the lengths and of the number of arguments. -/
theorem strings_separate_iff (c : Call) (hstring : ∃ e, Arg.string e ∈ c.passed) :
    c.StringsSeparate ↔ c.Separable :=
  ⟨separable_of_separate hstring, separate_of_separable⟩

theorem strings_separate_iff_printf :
    (Call.printf (.literal [37, 115]) [.string (.rvalue fun _ => 0)]).StringsSeparate ↔
      (Call.printf (.literal [37, 115]) [.string (.rvalue fun _ => 0)]).Separable :=
  strings_separate_iff _ ⟨_, List.mem_cons_self⟩

end

/-- A string of 1024 characters behind a format. -/
def Call.longLine : Call :=
  .printf (.literal [37, 115]) [.string (.rvalue fun i => if i < 1024 then 65 else 0)]

/-- A string of 1024 characters loses its NUL. -/
theorem longLine_not_separate : ¬ Call.longLine.StringsSeparate := by
  intro h
  have hsep := separable_of_separate ⟨_, List.mem_cons_self⟩ h
  obtain ⟨s, hs, hlength⟩ := hsep.short _ (List.mem_cons_of_mem _ List.mem_cons_self)
  have hend : (if s.length < 1024 then 65 else 0 : Byte) = 0 := hs.2
  rw [if_pos (by unfold maxLength at hlength; omega)] at hend
  cases hend

end Aomp.Arguments
