import Aomp.Arguments.Calls
import Aomp.Fortran.Flush

/-!
# Numeric output

A number goes from the stub through the buffer, the array of arguments and the deferred entry
to the wrapper, which reads it with `va_arg` and passes it to the host function. `widen` and
`narrow` are the conversions between `float` and `double`, on patterns.
-/
namespace Aomp.Fortran

open Foundations Hostexec Arguments

/-- A call of a stub of `_FortranAioOutput`, without the cookie. -/
inductive NumericOutput
  | integer8 (n : BitVec 8)
  | integer16 (n : BitVec 16)
  | integer32 (a2 : BitVec 32)
  | integer64 (n : BitVec 64)
  | real32 (x : BitVec 32)
  | real64 (x : BitVec 64)
  | complex32 (re im : BitVec 32)
  | complex64 (re im : BitVec 64)
  | logical (barg : Bool)
  deriving DecidableEq

/-- `_EXTRA_ARGS` -/
structure Identity where
  thread_num : BitVec 32
  num_threads : BitVec 32
  team_num : BitVec 32
  num_teams : BitVec 32

namespace NumericOutput

def fn : NumericOutput → DeviceRt
  | integer8 _ => .outputInteger8
  | integer16 _ => .outputInteger16
  | integer32 _ => .outputInteger32
  | integer64 _ => .outputInteger64
  | real32 _ => .outputReal32
  | real64 _ => .outputReal64
  | complex32 _ _ => .outputComplex32
  | complex64 _ _ => .outputComplex64
  | logical _ => .outputLogical

def promoted (widen : BitVec 32 → BitVec 64) : NumericOutput → List Arg
  | integer8 n => [.int32 (n.signExtend 32)]
  | integer16 n => [.int32 (n.signExtend 32)]
  | integer32 a2 => [.int32 a2]
  | integer64 n => [.int64 n]
  | real32 x => [.double (widen x)]
  | real64 x => [.double x]
  | complex32 re im => [.double (widen re), .double (widen im)]
  | complex64 re im => [.double re, .double im]
  | logical barg => [.int32 (if barg then 1 else 0)]

/-- The call of `hostexec_fortrt`. -/
def stubCall (widen : BitVec 32 → BitVec 64) (id : Identity) (cookie : Word) (x : NumericOutput) :
    Call :=
  .hostexec x.fn.idx (.int32 id.thread_num :: .int32 id.num_threads :: .int32 id.team_num ::
    .int32 id.num_teams :: .pointer cookie :: x.promoted widen)

end NumericOutput

/-- The first part of `fortran_rt_service`, for arguments that are numbers. -/
def fortranRequest (mem : ℕ → Byte) (buf bufsz : ℕ) : Except Failure (Option Request) :=
  if bufsz = 0 then .ok none
  else (unpackFnptr mem buf).map fun r =>
    some ⟨BitVec.ofNat 64 r.fnptr, r.a.map fun w => .word (BitVec.ofNat 64 w)⟩

/-- What the host function of the name gets, the conversions of the wrapper included. -/
def HostCall.output (narrow : BitVec 64 → BitVec 32) (host : HostCall) : Option NumericOutput :=
  match host.fn, host.args with
  | .outputInteger8, [.word v1] => some (.integer8 (v1.setWidth 8))
  | .outputInteger16, [.word v1] => some (.integer16 (v1.setWidth 16))
  | .outputInteger32, [.word v1] => some (.integer32 (v1.setWidth 32))
  | .outputInteger64, [.word v1] => some (.integer64 v1)
  | .outputReal32, [.word v1] => some (.real32 (narrow v1))
  | .outputReal64, [.word v1] => some (.real64 v1)
  | .outputComplex32, [.word v1, .word v2] => some (.complex32 (narrow v1) (narrow v2))
  | .outputComplex64, [.word v1, .word v2] => some (.complex64 v1 v2)
  | .outputLogical, [.word v1] => some (.logical (v1 ≠ 0))
  | _, _ => none

/-- The word of an argument that is no string. -/
def Arg.word : Arg → Word
  | .int32 v => v.setWidth 64
  | .int64 v | .double v | .pointer v => v
  | .string _ => 0

namespace NumericOutput

variable (widen : BitVec 32 → BitVec 64) (id : Identity) (cookie : Word) (x : NumericOutput)

def request : StubRequest where
  fn := x.fn
  thread_num := id.thread_num
  num_threads := id.num_threads
  team_num := id.team_num
  num_teams := id.num_teams
  args := .word cookie :: (x.promoted widen).map fun a => .word (Arg.word a)
  accepts := by cases x <;> rfl

/-- The request is in the buffer that the stub fills. -/
def Sent : Prop :=
  ∃ e, emitHostexecAllocAndExecFns (x.stubCall widen id cookie).passed = some e ∧
    ∀ (mem₀ mem : ℕ → Byte) (buf : ℕ), 8 ∣ buf → buf + e.BufferLen < 2 ^ 64 →
      (∀ i < e.BufferLen, mem (buf + i) = Store.writeAll buf mem₀ e.stores (buf + i)) →
      fortranRequest mem buf e.BufferLen = .ok (some (x.request widen id cookie).toRequest)

end NumericOutput

def Arg.IsNumber : Arg → Prop
  | .string _ => False
  | _ => True

def numberEntries (args : List Arg) : List Arguments.Entry := args.map fun a => ⟨a, []⟩

section Numbers

variable {args : List Arg} (hargs : ∀ a ∈ args, Arg.IsNumber a)

include hargs

theorem mapM_numbers : args.mapM Arg.entry = some (numberEntries args) := by
  induction args with
  | nil => rfl
  | cons a args ih =>
    have hrest := ih fun b hb => hargs b (List.mem_cons_of_mem a hb)
    have ha := hargs a List.mem_cons_self
    rw [List.mapM_cons, hrest]
    cases a with
    | string e => exact ha.elim
    | int32 v | int64 v | double v | pointer v => rfl

theorem lowered_numbers : ∀ f ∈ numberEntries args, f.Lowered := by
  intro f hf
  obtain ⟨a, ha, rfl⟩ := List.mem_map.mp hf
  have hnumber := hargs a ha
  cases a with
  | string e => exact hnumber.elim
  | int32 v | int64 v | double v | pointer v => rfl

theorem words_numbers (buf str : ℕ) :
    (words buf str (numberEntries args)).map Prod.snd = args.map fun a => (Arg.word a).toNat := by
  unfold numberEntries
  induction args generalizing str with
  | nil => rfl
  | cons a args ih =>
    have hrest := ih (fun b hb => hargs b (List.mem_cons_of_mem a hb)) (str + 0)
    have ha := hargs a List.mem_cons_self
    rw [List.map_cons, words, List.map_cons, List.length_nil, hrest, List.map_cons]
    congr 1
    cases a with
    | string e => exact ha.elim
    | int32 v =>
      have hv := v.isLt
      show v.toNat = (v.setWidth 64).toNat
      rw [BitVec.toNat_setWidth]
      omega
    | int64 v | double v | pointer v => rfl

end Numbers

theorem fits_numbers {args : List Arg} (hcount : args.length ≤ 33) : Fits (numberEntries args) := by
  have hdata : dataLen (numberEntries args) ≤ _ := dataEnd_le _ _
  have hlength : (numberEntries args).length = args.length := List.length_map _
  have hsum : ((numberEntries args).map fun f => f.text.length).sum = 0 := by
    apply List.sum_eq_zero
    intro n hn
    obtain ⟨f, hf, rfl⟩ := List.mem_map.mp hn
    obtain ⟨a, -, rfl⟩ := List.mem_map.mp hf
    rfl
  constructor
  · omega
  · unfold textEnd
    omega

theorem unpackFnptr_numbers (fnptr : Word) {args : List Arg} (hargs : ∀ a ∈ args, Arg.IsNumber a)
    (hpos : args ≠ []) (hcount : args.length ≤ 32) :
    ∃ e, emitHostexecAllocAndExecFns (.pointer fnptr :: args) = some e ∧ e.BufferLen ≠ 0 ∧
      ∀ (mem₀ mem : ℕ → Byte) (buf : ℕ), 8 ∣ buf → buf + e.BufferLen < 2 ^ 64 →
        (∀ i < e.BufferLen, mem (buf + i) = Store.writeAll buf mem₀ e.stores (buf + i)) →
        unpackFnptr mem buf =
          .ok ⟨fnptr.toNat, args.length, args.map fun a => (Arg.word a).toNat⟩ := by
  have hall : ∀ a ∈ Arg.pointer fnptr :: args, Arg.IsNumber a :=
    List.forall_mem_cons.mpr ⟨trivial, hargs⟩
  have hfits : Fits (numberEntries (.pointer fnptr :: args)) := by
    apply fits_numbers
    rw [List.length_cons]
    omega
  have hlength : (numberEntries args).length = args.length := List.length_map _
  refine ⟨⟨textEnd (dataLen (numberEntries (.pointer fnptr :: args)))
    (numberEntries (.pointer fnptr :: args)), layoutStores (numberEntries (.pointer fnptr :: args))⟩,
      ?_, ?_, ?_⟩
  · unfold emitHostexecAllocAndExecFns
    rw [mapM_numbers hall, Option.map_some, emitEntries_eq hfits.buffer]
  · have hwords : 4 * ((numberEntries (.pointer fnptr :: args)).length + 2) ≤
        dataLen (numberEntries (.pointer fnptr :: args)) := le_dataEnd _ _
    have htext := dataLen_le_textEnd (numberEntries (.pointer fnptr :: args))
    dsimp only
    omega
  · intro mem₀ mem buf hbuf hspace hmem
    have h := received_of_stores hbuf hfits hspace (lowered_numbers hall) hmem
    have hpos' : numberEntries args ≠ [] := by simpa [numberEntries] using hpos
    have hunpack := unpackFnptr_received h hpos' (hlength.trans_le hcount)
    rw [hunpack, List.length_map]
    congr 2
    exact words_numbers hargs _ _

theorem sent (widen : BitVec 32 → BitVec 64) (id : Identity) (cookie : Word) (x : NumericOutput) :
    x.Sent widen id cookie := by
  have hnumbers : ∀ a ∈ Arg.int32 id.thread_num :: .int32 id.num_threads :: .int32 id.team_num ::
      .int32 id.num_teams :: .pointer cookie :: x.promoted widen, Arg.IsNumber a := by
    cases x <;> simp [NumericOutput.promoted, Arg.IsNumber]
  have hcount : (x.promoted widen).length ≤ 2 := by
    cases x <;> simp [NumericOutput.promoted]
  obtain ⟨e, hemit, hsz, hunpack⟩ := unpackFnptr_numbers x.fn.idx hnumbers
    (List.cons_ne_nil _ _) (by simp only [List.length_cons]; omega)
  refine ⟨e, hemit, fun mem₀ mem buf hbuf hspace hmem => ?_⟩
  unfold fortranRequest
  rw [if_neg hsz, hunpack mem₀ mem buf hbuf hspace hmem]
  show Except.ok (some _) = Except.ok (some _)
  congr 2
  unfold StubRequest.toRequest NumericOutput.request
  simp only [List.map_cons, List.map_map, Function.comp_def, BitVec.ofNat_toNat, BitVec.setWidth_eq]
  rfl

variable {ι ρ : Type} {results : ℕ → Word} {s s' : State ι ρ}

/-- The call is that of a request, and its wrapper has read the arguments recorded. -/
def Called.Answers (c : Called ι ρ) (sig : DeviceRt × List ArgVal × ρ × ι) : Prop :=
  c.signature = sig ∧ ∃ cookie, vWrapper cookie sig.1 sig.2.1 = some c.host

theorem runDeferred_answers {qs : List (Entry ι ρ)} {rc : ServiceRc} (hruns : ∀ q ∈ qs, q.Runs)
    (h : runDeferred results s qs = some (s', rc)) :
    ∃ calls, s'.called = s.called ++ calls ∧
      List.Forall₂ Called.Answers calls (qs.map Entry.signature) := by
  induction qs generalizing s with
  | nil =>
    obtain ⟨rfl, -⟩ := Prod.mk.inj (Option.some.inj h)
    exact ⟨[], (List.append_nil _).symm, List.Forall₂.nil⟩
  | cons q qs ih =>
    have hq := hruns q List.mem_cons_self
    have hargs : q.arg_array.take q.NumArgs = q.arg_array := by rw [← hq.length, List.take_length]
    rw [runDeferred, if_pos hq.callable, hargs] at h
    obtain ⟨t, ht, hrest⟩ := Option.bind_eq_some_iff.mp h
    obtain ⟨host, hhost, rfl⟩ := Option.map_eq_some_iff.mp ht
    obtain ⟨calls, hcalled, hanswers⟩ := ih (fun q' hq' => hruns q' (List.mem_cons_of_mem _ hq')) hrest
    refine ⟨_ :: calls, hcalled.trans (List.append_assoc _ _ _), ?_⟩
    exact List.Forall₂.cons ⟨rfl, _, hhost⟩ hanswers

theorem flush_answers {fns : List (Entry ι ρ)} (hfns : s.deferred_fns = .live fns)
    (hruns : ∀ q ∈ fns, q.Runs) (h : flush results s = some (s', .success)) :
    ∃ calls, s'.called = s.called ++ calls ∧ List.Forall₂ Called.Answers calls
      ((scan s.max_num_teams.toNat s.max_num_threads.toNat fns).map Entry.signature) := by
  have hscan : ∀ q ∈ scan s.max_num_teams.toNat s.max_num_threads.toNat fns, q.Runs := by
    intro q hq
    rw [scan_eq, mem_bucketScan] at hq
    exact hruns q hq.1
  unfold flush at h
  rw [hfns] at h
  dsimp only at h
  split_ifs at h
  obtain ⟨⟨u, rc⟩, hrun, hrest⟩ := Option.map_eq_some_iff.mp h
  obtain ⟨calls, hcalled, hanswers⟩ := runDeferred_answers hscan hrun
  refine ⟨calls, ?_, hanswers⟩
  dsimp only at hrest
  split_ifs at hrest
  · obtain ⟨rfl, -⟩ := Prod.mk.inj hrest
    exact hcalled
  · obtain ⟨rfl, -⟩ := Prod.mk.inj hrest
    exact hcalled

/-- The requests of a kernel up to the `End` that closes the last statement. -/
structure Kernel (pre : List (Arrival ι ρ)) (last : Arrival ι ρ) : Prop where
  identity : ∀ r ∈ pre ++ [last], r.req.thread_num < r.req.num_threads ∧
    r.req.team_num < r.req.num_teams
  opened : ∀ p, p <+: pre → ¬ Closes p
  closed : Closes (pre ++ [last])

/-- The calls that the requests lead to, each with the request that it answers. -/
structure Calls (results : ℕ → Word) (pre : List (Arrival ι ρ)) (last : Arrival ι ρ)
    (answered : List (Called ι ρ × Arrival ι ρ)) : Prop where
  served : ∃ s s' : State ι ρ, serveAll results State.init pre = some s ∧
    serve results s last = some (s', .success) ∧ s'.called = answered.map Prod.fst
  requests : (answered.map Prod.snd).Perm (pre ++ [last])
  answers : ∀ p ∈ answered, Called.Answers p.1 p.2.signature

theorem calls_of_kernel (results : ℕ → Word) {pre : List (Arrival ι ρ)} {last : Arrival ι ρ}
    (h : Kernel pre last) : ∃ answered, Calls results pre last answered := by
  obtain ⟨s, hs, hrec⟩ := serveAll_recorded results pre h.opened
  have hfull := hrec.record last
  have htrigger := (hrec.triggers_iff last).mpr h.closed
  have hruns : ∀ q ∈ (s.record last.req last.return_value last.origin).deferred_fns.entries,
      q.Runs := by
    rw [hfull.entries]
    intro q hq
    obtain ⟨x, -, rfl⟩ := List.mem_map.mp hq
    exact x.1.req.entry_runs _ _ _
  obtain ⟨s', -, hflush, -⟩ := flush_of_runs results rfl hfull.teams_lt hfull.threads_lt hruns
  obtain ⟨calls, hcalled, hanswers⟩ := flush_answers rfl hruns hflush
  obtain ⟨order, hperm, -, hscan⟩ := hfull.scan h.identity
  have hsigs : List.Forall₂ Called.Answers calls ((order.map Prod.fst).map Arrival.signature) := by
    rw [List.map_map]
    exact hscan ▸ hanswers
  rw [List.forall₂_map_right_iff, List.forall₂_iff_zip] at hsigs
  obtain ⟨hlength, hzip⟩ := hsigs
  refine ⟨calls.zip (order.map Prod.fst), ⟨s, s', hs, ?_, ?_⟩, ?_, fun p hp => hzip hp⟩
  · rw [serve, fortranRtService_stub _ _ _ _ _ hrec.not_freed, if_pos htrigger, hflush]
  · rw [hcalled, hfull.called, List.nil_append, List.map_fst_zip hlength.le]
  · rw [List.map_snd_zip hlength.ge]
    have hfst := hperm.map Prod.fst
    rwa [List.zipIdx_map_fst] at hfst

namespace NumericOutput

/-- `V_FortranAioOutputInteger64` reads 32 bits. -/
def Readable : NumericOutput → Prop
  | integer64 n => n.toNat < 2 ^ 32
  | _ => True

/-- Every call that answers a request of the stub is a call of the host function of the same
name with the same value. -/
def Faithful (widen : BitVec 32 → BitVec 64) (narrow : BitVec 64 → BitVec 32) (x : NumericOutput) :
    Prop :=
  ∀ (id : Identity) (cookie : Word), x.Sent widen id cookie ∧
    ∀ (ι ρ : Type) (results : ℕ → Word) (pre : List (Arrival ι ρ)) (last : Arrival ι ρ),
      Kernel pre last → ∃ answered, Calls results pre last answered ∧
        ∀ p ∈ answered, p.2.req = x.request widen id cookie →
          p.1.host.fn = x.fn ∧ p.1.host.output narrow = some x

end NumericOutput

theorem setWidth_signExtend {n : ℕ} (hn : n ≤ 32) (x : BitVec n) :
    ((((x.signExtend 32).setWidth 64).setWidth 32).setWidth 64).setWidth n = x := by
  ext i hi
  simp [BitVec.getElem_signExtend, hi, show i < 32 by omega]

theorem setWidth_low_iff (n : Word) : (n.setWidth 32).setWidth 64 = n ↔ n.toNat < 2 ^ 32 := by
  have hn := n.isLt
  rw [← BitVec.toNat_inj, BitVec.toNat_setWidth, BitVec.toNat_setWidth]
  omega

/-- The wrapper gets the value, if it reads all of it. -/
theorem host_output {widen : BitVec 32 → BitVec 64} {narrow : BitVec 64 → BitVec 32}
    (hnarrow : ∀ x, narrow (widen x) = x) {id : Identity} {cookie list_started_cookie : Word}
    {x : NumericOutput} {host : HostCall} (h : vWrapper list_started_cookie x.fn
      (x.request widen id cookie).recorded = some host) :
    host.fn = x.fn ∧ (host.output narrow = some x ↔ x.Readable) := by
  cases x with
  | integer8 n =>
    obtain rfl := Option.some.inj h
    refine ⟨rfl, iff_of_true ?_ trivial⟩
    exact congrArg (some ∘ NumericOutput.integer8) (setWidth_signExtend (by norm_num) n)
  | integer16 n =>
    obtain rfl := Option.some.inj h
    refine ⟨rfl, iff_of_true ?_ trivial⟩
    exact congrArg (some ∘ NumericOutput.integer16) (setWidth_signExtend (by norm_num) n)
  | integer32 a2 =>
    obtain rfl := Option.some.inj h
    refine ⟨rfl, iff_of_true ?_ trivial⟩
    have hlow : (((a2.setWidth 64).setWidth 32).setWidth 64).setWidth 32 = a2 := by simp
    exact congrArg (some ∘ NumericOutput.integer32) hlow
  | integer64 n =>
    obtain rfl := Option.some.inj h
    refine ⟨rfl, ?_⟩
    rw [show HostCall.output narrow _ = some (NumericOutput.integer64 ((n.setWidth 32).setWidth 64))
      from rfl, Option.some.injEq, NumericOutput.integer64.injEq]
    exact setWidth_low_iff n
  | real32 y =>
    obtain rfl := Option.some.inj h
    exact ⟨rfl, iff_of_true (congrArg (some ∘ NumericOutput.real32) (hnarrow y)) trivial⟩
  | real64 y =>
    obtain rfl := Option.some.inj h
    exact ⟨rfl, iff_of_true rfl trivial⟩
  | complex32 re im =>
    obtain rfl := Option.some.inj h
    exact ⟨rfl, iff_of_true (congrArg some (congrArg₂ NumericOutput.complex32 (hnarrow re) (hnarrow im)))
      trivial⟩
  | complex64 re im =>
    obtain rfl := Option.some.inj h
    exact ⟨rfl, iff_of_true rfl trivial⟩
  | logical barg =>
    obtain rfl := Option.some.inj h
    refine ⟨rfl, iff_of_true ?_ trivial⟩
    cases barg <;> rfl

theorem kernel_one (widen : BitVec 32 → BitVec 64) (x : NumericOutput) : Kernel (ι := Unit) (ρ := Unit)
    [⟨⟨.beginExternalListOutput, 0, 1, 0, 1, [.word 6, .str [97], .word 3], rfl⟩, (), ()⟩,
      ⟨x.request widen ⟨0, 1, 0, 1⟩ 0, (), ()⟩]
    ⟨⟨.endIoStatement, 0, 1, 0, 1, [.word 0], rfl⟩, (), ()⟩ := by
  refine ⟨fun r hr => ?_, fun p hp hclose => ?_, ?_⟩
  · simp only [List.cons_append, List.nil_append, List.mem_cons, List.not_mem_nil, or_false] at hr
    have hidentity : (0 : BitVec 32) < 1 := by decide
    rcases hr with rfl | rfl | rfl <;> exact ⟨hidentity, hidentity⟩
  · rw [← List.mem_inits] at hp
    simp only [List.inits, List.map_cons, List.map_nil, List.mem_cons, List.not_mem_nil, or_false] at hp
    obtain ⟨hlast, -⟩ := hclose
    rcases hp with rfl | rfl | rfl
    · cases hlast
    · cases hlast
    · cases x <;> cases hlast
  · cases x <;> exact ⟨rfl, rfl⟩

theorem readable_of_faithful {widen : BitVec 32 → BitVec 64} {narrow : BitVec 64 → BitVec 32}
    (hnarrow : ∀ x, narrow (widen x) = x) {x : NumericOutput} (h : x.Faithful widen narrow) :
    x.Readable := by
  obtain ⟨answered, hcalls, hvalue⟩ :=
    (h ⟨0, 1, 0, 1⟩ 0).2 Unit Unit (fun _ => 0) _ _ (kernel_one widen x)
  have hmem : ⟨x.request widen ⟨0, 1, 0, 1⟩ 0, (), ()⟩ ∈ answered.map Prod.snd := by
    rw [hcalls.requests.mem_iff]
    simp
  obtain ⟨p, hp, hreq⟩ := List.mem_map.mp hmem
  obtain ⟨-, cookie, hhost⟩ := hcalls.answers p hp
  rw [hreq] at hhost
  exact (host_output hnarrow hhost).2.mp (hvalue p hp (by rw [hreq])).2

/-- A number arrives unless it is a 64-bit integer with more than 32 bits. -/
theorem faithful_iff {widen : BitVec 32 → BitVec 64} {narrow : BitVec 64 → BitVec 32}
    (hnarrow : ∀ x, narrow (widen x) = x) (x : NumericOutput) :
    x.Faithful widen narrow ↔ x.Readable := by
  constructor
  · exact readable_of_faithful hnarrow
  · intro hread id cookie
    refine ⟨sent widen id cookie x, fun ι ρ results pre last hkernel => ?_⟩
    obtain ⟨answered, hcalls⟩ := calls_of_kernel results hkernel
    refine ⟨answered, hcalls, fun p hp hreq => ?_⟩
    obtain ⟨-, c, hhost⟩ := hcalls.answers p hp
    have hsig : p.2.signature.1 = (x.request widen id cookie).fn ∧
        p.2.signature.2.1 = (x.request widen id cookie).recorded := by
      rw [← hreq]
      exact ⟨rfl, rfl⟩
    rw [hsig.1, hsig.2] at hhost
    have hout := host_output hnarrow hhost
    exact ⟨hout.1, hout.2.mpr hread⟩

/-- `float` to `double` for a normal number: the exponent has another bias. -/
def widenNormal (x : BitVec 32) : BitVec 64 :=
  BitVec.ofNat 64 (x.toNat / 2 ^ 31 * 2 ^ 63 + (x.toNat / 2 ^ 23 % 2 ^ 8 + 896) * 2 ^ 52 +
    x.toNat % 2 ^ 23 * 2 ^ 29)

def narrowNormal (x : BitVec 64) : BitVec 32 :=
  BitVec.ofNat 32 (x.toNat / 2 ^ 63 * 2 ^ 31 + (x.toNat / 2 ^ 52 % 2 ^ 11 - 896) * 2 ^ 23 +
    x.toNat / 2 ^ 29 % 2 ^ 23)

theorem narrowNormal_widenNormal (x : BitVec 32) : narrowNormal (widenNormal x) = x := by
  have hx := x.isLt
  apply BitVec.eq_of_toNat_eq
  unfold narrowNormal widenNormal
  rw [BitVec.toNat_ofNat, BitVec.toNat_ofNat]
  omega

/-- 1.0 is printed as 1.0. -/
theorem faithful_one : (NumericOutput.real32 0x3f800000).Faithful widenNormal narrowNormal :=
  (faithful_iff narrowNormal_widenNormal _).mpr trivial

/-- -1 as a 64-bit integer does not arrive as -1. -/
theorem not_faithful_minusOne : ¬ (NumericOutput.integer64 (-1)).Faithful widenNormal narrowNormal := by
  intro h
  have hread := readable_of_faithful narrowNormal_widenNormal h
  exact absurd hread (show ¬ BitVec.toNat (-1 : Word) < 2 ^ 32 by decide)

end Aomp.Fortran
