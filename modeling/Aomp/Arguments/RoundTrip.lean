import Mathlib.Data.List.GetD
import Aomp.Arguments.Services

/-!
# The round trip of an argument list

What the emitted code packs for a call of `printf`, `fprintf` or a `hostexec` function stays
inside the buffer that it requests, and the host takes the same values out of it.
-/
namespace Aomp.Arguments

open Foundations

def CString (instr : ℕ → Byte) (s : List Byte) : Prop :=
  (∀ i < s.length, instr i = s.getD i 0 ∧ instr i ≠ 0) ∧ instr s.length = 0

namespace StringExpr

def HasText : StringExpr → List Byte → Prop
  | literal SL, s => s = SL
  | rvalue instr, s | declRef _ _ instr, s | lvalue instr, s => CString instr s

/-- Literals, and strings of up to 1024 bytes in a variable without a string literal as
initializer or in an expression that is not an lvalue. A pointer variable with such an
initializer has to point to it still. -/
def Supported : StringExpr → Prop
  | literal _ => True
  | rvalue instr | declRef _ none instr => ∃ s, CString instr s ∧ s.length + 1 ≤ 1024
  | declRef false (some SL) instr => ∀ i, instr i = SL.getD i 0
  | declRef true (some _) _ | lvalue _ => False

end StringExpr

theorem strlen_max_le (instr : ℕ → Byte) (maxstrlen : ℕ) : strlen_max instr maxstrlen ≤ maxstrlen := by
  unfold strlen_max
  cases hfind : (List.range maxstrlen).find? fun i => instr i = 0 with
  | none => exact le_rfl
  | some i => exact List.mem_range.mp (List.mem_of_find?_eq_some hfind)

theorem strlen_max_eq {instr : ℕ → Byte} {s : List Byte} {maxstrlen : ℕ} (h : CString instr s)
    (hmax : s.length + 1 ≤ maxstrlen) : strlen_max instr maxstrlen = s.length + 1 := by
  have hfind : ((List.range maxstrlen).find? fun i => instr i = 0) = some s.length := by
    rw [List.find?_range_eq_some]
    refine ⟨by simpa using h.2, List.mem_range.mpr (by omega), fun i hi => ?_⟩
    simpa using (h.1 i hi).2
  unfold strlen_max
  rw [hfind]

theorem getD_append_nul (SL : List Byte) (i : ℕ) : (SL ++ [0]).getD i 0 = SL.getD i 0 := by
  rcases lt_trichotomy i SL.length with hi | rfl | hi
  · rw [List.getD_append _ _ _ _ hi]
  · rw [List.getD_append_right _ _ _ _ le_rfl, List.getD_eq_default _ _ le_rfl]
    simp
  · rw [List.getD_eq_default _ _ hi.le, List.getD_eq_default]
    rw [List.length_append, List.length_singleton]
    exact hi

/-- The bytes up to the first NUL of a literal are a C string. -/
theorem exists_cstring {instr : ℕ → Byte} {n : ℕ} (h : instr n = 0) :
    ∃ s, CString instr s ∧ s.length ≤ n := by
  have hex : ∃ n, instr n = 0 := ⟨n, h⟩
  refine ⟨(List.range (Nat.find hex)).map instr, ⟨fun i hi => ?_, ?_⟩, ?_⟩
  · rw [List.length_map, List.length_range] at hi
    exact ⟨by simp [hi], Nat.find_min hex hi⟩
  · rw [List.length_map, List.length_range]
    exact Nat.find_spec hex
  · rw [List.length_map, List.length_range]
    exact Nat.find_min' hex h

theorem copied_variable {instr : ℕ → Byte} {s : List Byte} (h : CString instr s)
    (hmax : s.length + 1 ≤ 1024) :
    s.length < ((List.range (strlen_max instr 1024)).map instr).length ∧
      ∀ i ≤ s.length, ((List.range (strlen_max instr 1024)).map instr).getD i 0 = s.getD i 0 := by
  rw [strlen_max_eq h hmax]
  refine ⟨by simp, fun i hi => ?_⟩
  have hcopy : ((List.range (s.length + 1)).map instr).getD i 0 = instr i := by
    simp [show i < s.length + 1 by omega]
  rcases hi.lt_or_eq with hi | rfl
  · exact hcopy.trans (h.1 i hi).1
  · rw [hcopy, h.2, List.getD_eq_default _ _ le_rfl]

/-- The bytes that are copied for a string begin with it and a NUL. -/
theorem copied_spec {e : StringExpr} (h : e.Supported) : ∃ text s, e.copied = some text ∧ e.HasText s ∧
    s.length < text.length ∧ ∀ i ≤ s.length, text.getD i 0 = s.getD i 0 := by
  have hliteral : ∀ SL : List Byte, SL.length < (SL ++ [0]).length := by simp
  cases e with
  | literal SL =>
    exact ⟨SL ++ [0], SL, rfl, rfl, hliteral SL, fun i _ => getD_append_nul SL i⟩
  | rvalue instr =>
    obtain ⟨s, hs, hmax⟩ := h
    obtain ⟨hlength, hcopy⟩ := copied_variable hs hmax
    exact ⟨_, s, rfl, hs, hlength, hcopy⟩
  | declRef isConstantArrayType getInit instr =>
    cases getInit with
    | none =>
      obtain ⟨s, hs, hmax⟩ := h
      obtain ⟨hlength, hcopy⟩ := copied_variable hs hmax
      exact ⟨_, s, rfl, hs, hlength, hcopy⟩
    | some SL =>
      cases isConstantArrayType with
      | true => exact h.elim
      | false =>
        have hinit : ∀ i, instr i = SL.getD i 0 := h
        have hend : instr SL.length = 0 := (hinit _).trans (List.getD_eq_default _ _ le_rfl)
        obtain ⟨s, hs, hle⟩ := exists_cstring hend
        refine ⟨SL ++ [0], s, rfl, hs, hle.trans_lt (hliteral SL), fun i hi => ?_⟩
        rw [getD_append_nul, ← hinit i]
        rcases hi.lt_or_eq with hi | rfl
        · exact (hs.1 i hi).1
        · rw [hs.2, List.getD_eq_default _ _ le_rfl]
  | lvalue instr => exact h.elim

namespace Arg

def Supported : Arg → Prop
  | string e => e.Supported
  | _ => True

/-- The register class that `va_arg` takes the argument from. -/
def regClass : Arg → RegClass
  | double _ => .fp
  | _ => .gp

/-- The word is the number, or a pointer to a copy of the string with its NUL. -/
def Delivered (mem : ℕ → Byte) (w : ℕ) : Arg → Prop
  | int32 v => w = v.toNat
  | int64 v | double v | pointer v => w = v.toNat
  | string e => ∃ s, e.HasText s ∧ ∀ i ≤ s.length, mem (w + i) = s.getD i 0

theorem exists_entry {a : Arg} (h : a.Supported) : ∃ f, a.entry = some f := by
  cases a with
  | string e =>
    obtain ⟨text, s, hcopied, -⟩ := copied_spec h
    exact ⟨⟨.string e, text⟩, by rw [Arg.entry, hcopied]; rfl⟩
  | int32 v | int64 v | double v | pointer v => exact ⟨_, rfl⟩

theorem entry_arg {a : Arg} {f : Entry} (h : a.entry = some f) : f.arg = a := by
  cases a with
  | string e =>
    obtain ⟨text, -, rfl⟩ := Option.map_eq_some_iff.mp h
    rfl
  | int32 v | int64 v | double v | pointer v =>
    have hf := Option.some.inj h
    rw [← hf]

end Arg

variable {mem : ℕ → Byte} {buf key data str : ℕ} {a : Arg} {f : Entry} {args : List Arg}
  {entries : List Entry}

def Lowers (args : List Arg) (entries : List Entry) : Prop :=
  List.Forall₂ (fun a f => Arg.entry a = some f) args entries

theorem mapM_entry (args : List Arg) (h : ∀ a ∈ args, a.Supported) :
    ∃ entries, args.mapM Arg.entry = some entries ∧ Lowers args entries := by
  induction args with
  | nil => exact ⟨[], rfl, List.Forall₂.nil⟩
  | cons a args ih =>
    obtain ⟨f, hf⟩ := Arg.exists_entry (h a List.mem_cons_self)
    obtain ⟨entries, hentries, hlowers⟩ := ih fun b hb => h b (List.mem_cons_of_mem a hb)
    refine ⟨f :: entries, ?_, List.Forall₂.cons hf hlowers⟩
    rw [List.mapM_cons, hf, hentries]
    rfl

theorem lowers_of_mapM (h : args.mapM Arg.entry = some entries) : Lowers args entries := by
  induction args generalizing entries with
  | nil =>
    obtain rfl := Option.some.inj h
    exact List.Forall₂.nil
  | cons a args ih =>
    rw [List.mapM_cons] at h
    obtain ⟨f, hf, hrest⟩ := Option.bind_eq_some_iff.mp h
    obtain ⟨fs, hfs, hcons⟩ := Option.bind_eq_some_iff.mp hrest
    obtain rfl := Option.some.inj hcons
    exact List.Forall₂.cons hf (ih hfs)

theorem Lowers.mapM_eq (h : Lowers args entries) : args.mapM Arg.entry = some entries := by
  induction h with
  | nil => rfl
  | cons hf _ ih =>
    rw [List.mapM_cons, hf, ih]
    rfl

theorem Lowers.lowered (h : Lowers args entries) : ∀ f ∈ entries, f.Lowered := by
  induction h with
  | nil => simp
  | cons hf _ ih =>
    intro g hg
    rcases List.mem_cons.mp hg with rfl | hg
    · unfold Entry.Lowered
      rw [Arg.entry_arg hf]
      exact hf
    · exact ih g hg

theorem Lowers.classes (h : Lowers args entries) (str : ℕ) :
    (words buf str entries).map Prod.fst = args.map Arg.regClass := by
  induction h generalizing str with
  | nil => rfl
  | @cons a f args entries hf _ ih =>
    rw [words, List.map_cons, List.map_cons, ih]
    congr 1
    obtain rfl := Arg.entry_arg hf
    unfold Entry.word Arg.regClass
    cases f.arg <;> rfl

theorem Entry.word_lt (hf : buf + str < 2 ^ 64) : (f.word buf str).2 < 256 ^ 8 := by
  have hpow : (256 : ℕ) ^ 8 = 2 ^ 64 := by norm_num
  rw [hpow]
  unfold Entry.word
  cases f.arg with
  | int32 v => exact v.isLt.trans (by norm_num)
  | int64 v | double v | pointer v => exact v.isLt
  | string e => exact hf

theorem textEnd_cons (str : ℕ) (f : Entry) (entries : List Entry) :
    textEnd str (f :: entries) = textEnd (str + f.text.length) entries := by
  simp [textEnd, add_assoc]

/-- Words are not cut off. -/
theorem words_lt (h : buf + textEnd str entries < 2 ^ 64) :
    ∀ w ∈ words buf str entries, w.2 < 256 ^ 8 := by
  induction entries generalizing str with
  | nil => simp [words]
  | cons f entries ih =>
    have hstr : str ≤ textEnd str (f :: entries) := Nat.le_add_right _ _
    intro w hw
    rcases List.mem_cons.mp hw with rfl | hw
    · exact Entry.word_lt (by omega)
    · rw [textEnd_cons] at h
      exact ih h w hw

theorem Entry.delivered (hentry : a.entry = some f) (ha : a.Supported)
    (htext : Store.Held ⟨str, f.text⟩ mem buf) : a.Delivered mem (f.word buf str).2 := by
  cases a with
  | string e =>
    obtain ⟨text, s, hcopied, hs, hlength, hcopy⟩ := copied_spec ha
    rw [Arg.entry, hcopied] at hentry
    obtain rfl : ⟨.string e, text⟩ = f := Option.some.inj hentry
    refine ⟨s, hs, fun i hi => ?_⟩
    have hi' : i < text.length := by omega
    rw [← hcopy i hi, List.getD_eq_getElem _ _ hi']
    exact htext i hi'
  | int32 v | int64 v | double v | pointer v =>
    obtain rfl := Option.some.inj hentry
    rfl

/-- The words of the entries in memory deliver the arguments. -/
theorem words_delivered (h : Lowers args entries) (hargs : ∀ a ∈ args, a.Supported)
    (hlaid : Laid mem buf key data str entries) :
    List.Forall₂ (fun a w => a.Delivered mem w) args ((words buf str entries).map Prod.snd) := by
  induction h generalizing key data str with
  | nil => exact List.Forall₂.nil
  | cons hf _ ih =>
    obtain ⟨-, -, htext, hrest⟩ := hlaid
    exact List.Forall₂.cons (Entry.delivered hf (hargs _ List.mem_cons_self) htext)
      (ih (fun b hb => hargs b (List.mem_cons_of_mem _ hb)) hrest)

theorem words_mod (h : buf + textEnd str entries < 2 ^ 64) :
    ((words buf str entries).map fun w => w.2 % 256 ^ 8) = (words buf str entries).map Prod.snd :=
  List.map_congr_left fun w hw => Nat.mod_eq_of_lt (words_lt h w hw)

end Aomp.Arguments
