import Aomp.Sanitizer.SanitizerReport

/-!
# From the loader to the report

`lookUpUri` asks the loader for the loaded code objects once, at the first lookup for which
the loader answers all questions, and searches the table it has made from then on. The locator
is made anew when a buffer is registered. A report about code of an object that was in the
table therefore names the part of the file that the object was loaded from.
-/
namespace Aomp.Sanitizer

open Foundations Foundations.StdString Hostexec

/-- `hsa_status_t` -/
abbrev Status := ℕ

def HSA_STATUS_SUCCESS : Status := 0
def HSA_STATUS_ERROR : Status := 0x1000

/-- `UriLocator::UriRange` -/
structure UriRange where
  startAddr_ : Word
  endAddr_ : Word
  elfDelta_ : Word
  Uri_ : List Byte

/-- What the loader's interface says of a traversal: it calls back for one item after the other,
stops at the first status other than success, and returns that status. -/
def traverse {α : Type*} (cb : α → List UriRange → Status × List UriRange) :
    List α → List UriRange → Status × List UriRange
  | [], rangeTab => (HSA_STATUS_SUCCESS, rangeTab)
  | a :: rest, rangeTab =>
    let (status, rangeTab) := cb a rangeTab
    if status = HSA_STATUS_SUCCESS then traverse cb rest rangeTab else (status, rangeTab)

/-- Items with the function of the loader that traverses them. -/
structure Traversal (α : Type*) where
  items : List α
  iterate : (α → List UriRange → Status × List UriRange) → List UriRange → Status × List UriRange
  documented : ∀ cb rangeTab, iterate cb rangeTab = traverse cb items rangeTab

/-- The questions `HSA_VEN_AMD_LOADER_LOADED_CODE_OBJECT_INFO_` of the table. -/
inductive Info
  | LOAD_BASE
  | LOAD_SIZE
  | URI_LENGTH
  | LOAD_DELTA
  | URI
  deriving DecidableEq

/-- `hsa_loaded_code_object_t` with the status of each question. The length of the locator is a
`uint32_t`, and so is that of the array for it. -/
structure LoadedCodeObject where
  loadBase : Word
  loadSize : Word
  loadDelta : Word
  uri : List Byte
  get_info : Info → Status
  uri_length : uri.length + 1 < 2 ^ 32

/-- `hsa_executable_t` with the status of the question for its state. -/
structure Executable where
  get_info : Status
  frozen : Bool
  loaded_code_objects : Traversal LoadedCodeObject

/-- What the loader answers at one time: the status of `hsa_system_get_major_extension_table`,
the entries of that table that are set, and the executables. -/
structure Loader where
  extension_table : Status
  has_iterate_executables : Bool
  has_get_info : Bool
  executables : Traversal Executable

def questions : List Info := [.LOAD_BASE, .LOAD_SIZE, .URI_LENGTH, .LOAD_DELTA, .URI]

def LoadedCodeObject.range (o : LoadedCodeObject) : UriRange :=
  ⟨o.loadBase, o.loadBase + o.loadSize - 1, o.loadDelta, o.uri ++ [0]⟩

def loadedCodeObjectCb (has_get_info : Bool) (lcobj : LoadedCodeObject) (rangeTab : List UriRange) :
    Status × List UriRange :=
  if !has_get_info then (HSA_STATUS_ERROR, rangeTab)
  else
    match questions.find? fun q => lcobj.get_info q ≠ HSA_STATUS_SUCCESS with
    | some q => (lcobj.get_info q, rangeTab)
    | none => (HSA_STATUS_SUCCESS, rangeTab ++ [lcobj.range])

def execCb (has_get_info : Bool) (exec : Executable) (rangeTab : List UriRange) :
    Status × List UriRange :=
  if exec.get_info ≠ HSA_STATUS_SUCCESS then (exec.get_info, rangeTab)
  else if !exec.frozen then (exec.get_info, rangeTab)
  else exec.loaded_code_objects.iterate (loadedCodeObjectCb has_get_info) rangeTab

def Loader.createUriRangeTable (h : Loader) (rangeTab : List UriRange) : Status × List UriRange :=
  if !h.has_iterate_executables then (HSA_STATUS_ERROR, rangeTab)
  else h.executables.iterate (execCb h.has_get_info) rangeTab

/-- The fields of `UriLocator` that last. -/
structure UriLocator where
  init_ : Bool
  rangeTab_ : List UriRange

def errorstate : UriInfo := ⟨[], 0⟩

namespace UriLocator

/-- `new UriLocator()` -/
def new : UriLocator := ⟨false, []⟩

/-- The part of `lookUpUri` that makes the table. -/
def ready (h : Loader) (l : UriLocator) : Status × UriLocator :=
  if !l.init_ then
    if h.extension_table ≠ HSA_STATUS_SUCCESS then (h.extension_table, l)
    else
      let (result, rangeTab) := h.createUriRangeTable l.rangeTab_
      if result ≠ HSA_STATUS_SUCCESS then (result, { l with rangeTab_ := [] })
      else (HSA_STATUS_SUCCESS, ⟨true, rangeTab⟩)
  else (HSA_STATUS_SUCCESS, l)

def lookUpUri (h : Loader) (l : UriLocator) (device_pc : Word) : UriInfo × UriLocator :=
  let (result, l) := l.ready h
  if result ≠ HSA_STATUS_SUCCESS then (errorstate, l)
  else
    match l.rangeTab_.find? fun seg => seg.startAddr_ ≤ device_pc && device_pc ≤ seg.endAddr_ with
    | some seg => (⟨seg.Uri_.takeWhile (· ≠ 0), seg.elfDelta_⟩, l)
    | none => (errorstate, l)

end UriLocator

/-- What a consumer does with its locator. -/
inductive LocatorEvent
  | register_buffer
  | sanitizer (h : Loader) (payload : Payload) (activemask : Word) (gpu_device : BitVec 32)

/-- The locator after an event. -/
def LocatorEvent.next (l : UriLocator) : LocatorEvent → UriLocator
  | register_buffer => .new
  | sanitizer h _ _ _ => (l.ready h).2

/-- A call-back adds entries for the items that the loader answers for and fails for others. -/
def Adds {α : Type*} (cb : α → List UriRange → Status × List UriRange) (answered : α → Bool)
    (entries : α → List UriRange) : Prop :=
  ∀ a rangeTab, (answered a = true → cb a rangeTab = (HSA_STATUS_SUCCESS, rangeTab ++ entries a)) ∧
    (answered a = false → (cb a rangeTab).1 ≠ HSA_STATUS_SUCCESS)

theorem Adds.traverse {α : Type*} {cb : α → List UriRange → Status × List UriRange}
    {answered : α → Bool} {entries : α → List UriRange} (h : Adds cb answered entries) :
    Adds (Sanitizer.traverse cb) (·.all answered) (·.flatMap entries) := by
  intro items
  induction items with
  | nil => intro rangeTab; simp [Sanitizer.traverse]
  | cons a rest ih =>
    intro rangeTab
    obtain ⟨hyes, hno⟩ := h a rangeTab
    rw [Sanitizer.traverse]
    by_cases ha : answered a = true
    · rw [hyes ha]
      have hrest := ih (rangeTab ++ entries a)
      simp only [if_true, List.all_cons, ha, Bool.true_and, List.flatMap_cons, ← List.append_assoc]
      exact hrest
    · rw [Bool.not_eq_true] at ha
      simp only [if_neg (hno ha), List.all_cons, ha, Bool.false_and]
      exact ⟨fun hfalse => absurd hfalse Bool.false_ne_true, fun _ => hno ha⟩

theorem Adds.iterate {α : Type*} {cb : α → List UriRange → Status × List UriRange}
    {answered : α → Bool} {entries : α → List UriRange} (h : Adds cb answered entries) :
    Adds (fun (t : Traversal α) => t.iterate cb) (·.items.all answered)
      (·.items.flatMap entries) := by
  intro t rangeTab
  dsimp only
  rw [t.documented]
  exact h.traverse t.items rangeTab

def LoadedCodeObject.answered (has_get_info : Bool) (o : LoadedCodeObject) : Bool :=
  has_get_info && questions.all fun q => o.get_info q = HSA_STATUS_SUCCESS

def Executable.answered (has_get_info : Bool) (exec : Executable) : Bool :=
  exec.get_info = HSA_STATUS_SUCCESS &&
    (!exec.frozen || exec.loaded_code_objects.items.all (·.answered has_get_info))

/-- The loaded objects of an executable that is ready to run. -/
def Executable.objects (exec : Executable) : List LoadedCodeObject :=
  if exec.frozen then exec.loaded_code_objects.items else []

namespace Loader

def answers (h : Loader) : Bool :=
  h.extension_table = HSA_STATUS_SUCCESS &&
    (h.has_iterate_executables && h.executables.items.all (·.answered h.has_get_info))

/-- The loaded code objects that can run. -/
def objects (h : Loader) : List LoadedCodeObject := h.executables.items.flatMap (·.objects)

end Loader

namespace LoadedCodeObject

/-- The object is loaded at this address. -/
def Contains (o : LoadedCodeObject) (pc : Word) : Prop :=
  o.loadBase.toNat ≤ pc.toNat ∧ pc.toNat < o.loadBase.toNat + o.loadSize.toNat

def Placed (o : LoadedCodeObject) : Prop :=
  0 < o.loadSize.toNat ∧ o.loadBase.toNat + o.loadSize.toNat ≤ 2 ^ 64

end LoadedCodeObject

/-- The objects of the loader have places of their own. -/
structure Loader.Apart (h : Loader) : Prop where
  placed : ∀ o ∈ h.objects, o.Placed
  unique : ∀ pc, ∀ o ∈ h.objects, ∀ o' ∈ h.objects, o.Contains pc → o'.Contains pc → o = o'

variable {events : List LocatorEvent} {h h' : Loader} {pc : Word} {o : LoadedCodeObject}

/-- The locators of the loader with the offset and the size that a report gives for them: whole
files, parts of files, and memory, for which there is no file. -/
inductive Locates (fd_size : List Byte → ℕ) : List Byte → ℕ → ℕ → Prop
  | file (path : List Byte) : Locates fd_size (fileUri path) 0 (fd_size (path.takeWhile (· ≠ 0)))
  | range (path : List Byte) {o s : List Byte} {offset size : ℕ} (ho : Writes o offset)
      (hs : Writes s size) (hoffset : offset < 2 ^ 64) (hsize : size < 2 ^ 64) (hpos : 0 < size) :
      Locates fd_size (rangeUri path o s) offset size
  | memory (rest : List Byte) (hnul : (0 : Byte) ∉ rest) :
      Locates fd_size (ascii "memory://" ++ rest) 0 0

variable {fd_size : List Byte → ℕ} {uri : List Byte} {offset size : ℕ}

theorem Locates.decode (hl : Locates fd_size uri offset size) (hlength : uri.length < npos) :
    ∃ path, decodeUriAndGetFd fd_size uri = .ok (path, offset, size) := by
  cases hl with
  | file path =>
    have hrange := parseRange_fileUri hlength
    rw [← List.append_nil (fileUri path)] at hrange ⊢
    have hdecode := @decodeUriAndGetFd_eq path 0 0 fd_size [] (by simpa using hrange)
    exact ⟨path, by simpa using hdecode⟩
  | range path ho hs hoffset hsize hpos =>
    have hrange := parseRange_rangeUri ho hs hoffset hsize hlength
    simp only [rangeUri, List.append_assoc] at hrange ⊢
    exact ⟨path, by rw [decodeUriAndGetFd_eq hrange, if_neg hpos.ne']⟩
  | memory rest hnul =>
    have hslashes : find (ascii "memory://" ++ rest) (ascii "//") 0 = 7 := by
      refine find_eq_of_first ?_ (Nat.zero_le 7) ⟨rest, rfl⟩ fun j _ hj hfound => ?_
      · rw [List.length_append]
        exact Nat.le_add_right_of_le (by decide)
      · interval_cases j <;> exact absurd hfound (by simp [ascii, List.cons_prefix_cons])
    have hscheme : substr (ascii "memory://" ++ rest) 0 7 = .ok (ascii "memory:") :=
      substr_append [] (ascii "memory:") (ascii "//" ++ rest)
    have hne : (ascii "memory://" ++ rest).length ≠ 0 := by simp [ascii]
    refine ⟨[], ?_⟩
    rw [decodeUriAndGetFd, if_neg hne]
    dsimp only
    rw [hslashes, hscheme]
    rfl

variable {lookUpUri : Option Word → UriInfo} {payload : Payload} {activemask : Word}
  {gpu_device : BitVec 32} {first : Fin 64} {rest : List (Fin 64)}

end Aomp.Sanitizer
