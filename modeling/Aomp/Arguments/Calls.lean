import Aomp.Arguments.RoundTrip

/-!
# Calls of the argument services

The three kinds of calls share the buffer and differ in the arguments that the host takes by
hand. Within the limits of the code every argument is delivered.
-/
namespace Aomp.Arguments

open Foundations

/-- A call with the arguments behind those that its service takes by hand. -/
inductive Call
  | printf (format : StringExpr) (args : List Arg)
  | fprintf (stream : BitVec 64) (format : StringExpr) (args : List Arg)
  | hostexec (fnptr : BitVec 64) (args : List Arg)

namespace Call

/-- All arguments, from which the buffer is made. -/
def passed : Call → List Arg
  | printf format args => .string format :: args
  | fprintf stream format args => .pointer stream :: .string format :: args
  | hostexec fnptr args => .pointer fnptr :: args

/-- What arrives at the function that the service calls, `vprintf` and `vfprintf` taking one
argument for each that was passed. `none` is a request that is not served. -/
def unpack (malloc : ℕ → Bool) (mem : ℕ → Byte) (buf bufsz : ℕ) : Call → Option (List ℕ)
  | printf _ args =>
    match hostrpc_printf malloc mem buf bufsz with
    | .ok (some call) => some (call.fmtstr :: va_args (args.map Arg.regClass) call.valist)
    | _ => none
  | fprintf _ _ args =>
    match hostrpc_fprintf malloc mem buf with
    | .ok ⟨some file, fmtstr, valist⟩ =>
      some (file :: fmtstr :: va_args (args.map Arg.regClass) valist)
    | _ => none
  | hostexec _ _ =>
    match hostexec_service mem buf bufsz with
    | .ok (some call) => some (call.fnptr :: call.args)
    | _ => none

/-- A function pointer comes with 1 to 32 arguments. -/
def Supported (c : Call) : Prop :=
  (∀ a ∈ c.passed, a.Supported) ∧
    match c with
    | hostexec _ args => args ≠ [] ∧ args.length ≤ MAXVARGS
    | _ => True

def Callable : Call → Prop
  | printf _ _ | fprintf _ _ _ => True
  | hostexec _ args => args ≠ [] ∧ args.length ≤ MAXVARGS

/-- The lengths of the buffer are 32-bit numbers, that of the data a signed one. -/
def Fits (c : Call) : Prop :=
  ∀ entries, c.passed.mapM Arg.entry = some entries → Arguments.Fits entries

end Call

variable {malloc : ℕ → Bool} {mem mem₀ : ℕ → Byte} {buf bufsz : ℕ} {entries : List Entry}
  {args : List Arg}

theorem received_of_stores (hbuf : 8 ∣ buf) (hfits : Fits entries)
    (hspace : buf + textEnd (dataLen entries) entries < 2 ^ 64)
    (hentries : ∀ f ∈ entries, f.Lowered)
    (hmem : ∀ i < textEnd (dataLen entries) entries,
      mem (buf + i) = Store.writeAll buf mem₀ (layoutStores entries) (buf + i)) :
    Received mem buf entries := by
  have hbetween := layoutStores_between hentries
  have hdata := hfits.data
  have hwords : 4 * (entries.length + 2) ≤ dataLen entries := le_dataEnd _ _
  have hheld : ∀ s ∈ layoutStores entries, s.Held mem buf := by
    intro s hs
    have hfinish := (hbetween.bounds s hs).2
    apply (hbetween.held s hs).congr
    intro i hi
    rw [add_assoc]
    exact hmem _ (by unfold Store.finish at hfinish; omega)
  have hsub : ∀ ss : List Store, (∀ s ∈ ss, s ∈ layoutStores entries) → ∀ s ∈ ss, s.Held mem buf :=
    fun ss hss s hs => hheld s (hss s hs)
  have hword : ∀ off v, ⟨off, leBytes 4 v⟩ ∈ layoutStores entries → v < 2 ^ 32 →
      readLE mem (buf + off) 4 = v := by
    intro off v hstore hv
    exact (hheld _ hstore).readLE.trans (Nat.mod_eq_of_lt hv)
  unfold layoutStores at hsub hword
  refine ⟨hbuf, hfits, hspace, hentries, ?_, ?_, laid_of_held hentries ?_ ?_ ?_⟩
  · exact hword 0 _ (by simp) (by omega)
  · exact hword 4 _ (by simp) (by omega)
  · exact hsub _ fun s hs => by simp [hs]
  · exact hsub _ fun s hs => by simp [hs]
  · exact hsub _ fun s hs => by simp [hs]

theorem printf_unpack {format : StringExpr} (h : Received mem buf entries)
    (hlowers : Lowers (.string format :: args) entries) (hmalloc : ∀ n, malloc n = true)
    (hsz : bufsz ≠ 0) : (Call.printf format args).unpack malloc mem buf bufsz =
      some ((words buf (dataLen entries) entries).map Prod.snd) := by
  obtain _ | ⟨hformat, hrest⟩ := hlowers
  rename_i f entries
  have harg := Arg.entry_arg hformat
  obtain ⟨v, hcall, hargs⟩ := printf_received h hmalloc harg hsz
  have hspace := h.space
  rw [textEnd_cons] at hspace
  rw [Lowers.classes hrest, words_mod hspace] at hargs
  have hword : (f.word buf (dataLen (f :: entries))).2 = buf + dataLen (f :: entries) := by
    unfold Entry.word
    rw [harg]
  unfold Call.unpack
  simp only [hcall]
  rw [hargs, words, List.map_cons, hword]

theorem fprintf_unpack {stream : BitVec 64} {format : StringExpr} (h : Received mem buf entries)
    (hlowers : Lowers (.pointer stream :: .string format :: args) entries)
    (hmalloc : ∀ n, malloc n = true) : (Call.fprintf stream format args).unpack malloc mem buf bufsz =
      some ((words buf (dataLen entries) entries).map Prod.snd) := by
  obtain _ | ⟨hstream, _ | ⟨hformat, hrest⟩⟩ := hlowers
  rename_i p f entries
  obtain rfl := Option.some.inj hstream
  have harg := Arg.entry_arg hformat
  obtain ⟨v, hcall, hargs⟩ := fprintf_received h hmalloc harg
  have hspace := h.space
  rw [textEnd_cons, textEnd_cons, List.length_nil, add_zero] at hspace
  rw [Lowers.classes hrest, words_mod hspace] at hargs
  have hword : (f.word buf (dataLen (⟨.pointer stream, []⟩ :: f :: entries))).2 =
      buf + dataLen (⟨.pointer stream, []⟩ :: f :: entries) := by
    unfold Entry.word
    rw [harg]
  unfold Call.unpack
  simp only [hcall]
  rw [hargs, words, words, List.map_cons, List.map_cons, List.length_nil, add_zero, hword]
  rfl

theorem hostexec_unpack {fnptr : BitVec 64} (h : Received mem buf entries)
    (hlowers : Lowers (.pointer fnptr :: args) entries) (hpos : args ≠ [])
    (hcount : args.length ≤ MAXVARGS) (hsz : bufsz ≠ 0) :
    (Call.hostexec fnptr args).unpack malloc mem buf bufsz =
      some ((words buf (dataLen entries) entries).map Prod.snd) := by
  obtain _ | ⟨hfnptr, hrest⟩ := hlowers
  rename_i p entries
  obtain rfl := Option.some.inj hfnptr
  have hlength : args.length = entries.length := List.Forall₂.length_eq hrest
  have hpos' : entries ≠ [] := by
    intro hnil
    rw [hnil, List.length_nil] at hlength
    exact hpos (List.length_eq_zero_iff.mp hlength)
  have hcall := hostexec_received h hpos' (hlength ▸ hcount) hsz
  unfold Call.unpack
  simp only [hcall]
  rw [words, List.map_cons, List.length_nil, add_zero]
  rfl

theorem unpack_words {c : Call} (h : Received mem buf entries) (hlowers : Lowers c.passed entries)
    (hcall : c.Callable) (hmalloc : ∀ n, malloc n = true) (hsz : bufsz ≠ 0) :
    c.unpack malloc mem buf bufsz = some ((words buf (dataLen entries) entries).map Prod.snd) := by
  cases c with
  | printf format args => exact printf_unpack h hlowers hmalloc hsz
  | fprintf stream format args => exact fprintf_unpack h hlowers hmalloc
  | hostexec fnptr args => exact hostexec_unpack h hlowers hcall.1 hcall.2 hsz

theorem copyStrings_last (off : ℕ) (hentries : ∀ f ∈ entries, f.Lowered)
    (hpos : 0 < (entries.map fun f => f.text.length).sum) :
    ∃ s ∈ copyStrings off entries, s.finish = textEnd off entries := by
  induction entries generalizing off with
  | nil => exact absurd hpos (Nat.lt_irrefl 0)
  | cons f entries ih =>
    have hrest := fun g hg => hentries g (List.mem_cons_of_mem f hg)
    rw [textEnd_cons]
    rw [List.map_cons, List.sum_cons] at hpos
    by_cases hs : ∃ e, f.arg = .string e
    · obtain ⟨e, he⟩ := hs
      simp only [copyStrings, he]
      by_cases hsum : 0 < (entries.map fun f => f.text.length).sum
      · obtain ⟨s, hs, hfinish⟩ := ih (off + f.text.length) hrest hsum
        exact ⟨s, List.mem_cons_of_mem _ hs, hfinish⟩
      · refine ⟨_, List.mem_cons_self, ?_⟩
        unfold Store.finish textEnd
        dsimp only
        omega
    · have htext := (hentries f List.mem_cons_self).text_eq_nil fun e he => hs ⟨e, he⟩
      rw [htext, List.length_nil, zero_add] at hpos
      rw [htext, List.length_nil, add_zero]
      cases harg : f.arg with
      | string e => exact absurd ⟨e, harg⟩ hs
      | int32 v | int64 v | double v | pointer v =>
        simp only [copyStrings, harg]
        exact ih off hrest hpos

namespace Call

/-- The memory after the stores of a call to the buffer at address 0. -/
def memory (c : Call) : ℕ → Byte :=
  Store.writeAll 0 (fun _ => 0) ((emitHostexecAllocAndExecFns c.passed).elim [] Emitted.stores)

def thirtyThreeArguments : Call := .hostexec 8 (List.replicate 33 (.int32 0))

/-- A variable with a literal as initializer that points to another string now. -/
def reassigned : Call := .printf (.declRef false (some [97]) fun i => if i = 0 then 98 else 0) []

def line : Arg := .string (.rvalue fun i => if i < 1023 then 65 else 0)

end Call

end Aomp.Arguments
