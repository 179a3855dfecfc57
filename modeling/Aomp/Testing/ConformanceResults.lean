import Mathlib.Data.List.Infix
import Aomp.Foundations.LastValue
import Aomp.Testing.LLNL

/-!
# The results of the conformance tests

`check_openmpvv.sh` and `check_sollve.sh` read the results of each OpenMP version line by line and sort
the tests into three lists. The two results of a test are put together to one status, and three statuses
have a list.
-/

namespace Aomp.Testing.Conformance

open Foundations
open LLNL (Text isSpace)

def isBlank (c : Char) : Bool := c ∈ [' ', '\t']

/-- `read -r line` takes the blanks from both ends. -/
def strip (line : Text) : Text :=
  ((line.dropWhile isBlank).reverse.dropWhile isBlank).reverse

/-- `\s` -/
def dropSpace : Text → Option Text
  | [] => none
  | c :: text => if isSpace c then some text else none

/-- `first\ssecond":\s"` at the start of a text. -/
def dropField (first second : String) (text : Text) : Option Text := do
  let text ← text.dropPrefix? first.toList
  let text ← dropSpace text
  let text ← text.dropPrefix? (second.toList ++ ['"', ':'])
  let text ← dropSpace text
  text.dropPrefix? ['"']

/-- `(.*)"` goes to the last quote. -/
def toLastQuote (text : Text) : Option Text :=
  if '"' ∈ text then some ((text.reverse.dropWhile (· ≠ '"')).drop 1).reverse else none

/-- `([A-Z]+)` -/
def capitals (text : Text) : Option Text :=
  let run := text.takeWhile fun c => 'A' ≤ c && c ≤ 'Z'
  if run = [] then none else some run

/-- `[[ "$line" =~ regex ]]`: the first place where the expression matches. -/
def search (regex : Text → Option Text) (line : Text) : Option Text := line.tails.findSome? regex

def testname_regex (text : Text) : Option Text := (dropField "Test" "name" text).bind toLastQuote

def compiler_regex (text : Text) : Option Text := (dropField "Compiler" "result" text).bind capitals

def runtime_regex (text : Text) : Option Text := (dropField "Runtime" "result" text).bind capitals

abbrev Version := Text

/-- The lists of a version. -/
inductive Kind
  | passing
  | makeFail
  | failing
  deriving DecidableEq

/-- The variables of the script, and the files that it writes: for each version the three temporary
files and the three lists. The variables with the names of the temporary files are set together. -/
structure Globals where
  results : List (Text × Text)
  compresult : Text
  runresult : Text
  tmpfiles : Option Version
  tmp : Version → Kind → Option (List Text)
  lists : Version → Kind → Option (List Text)

/-- The body of the loop in `parse`. -/
def parseLine (s : Globals) (line : Text) : Globals :=
  let line := strip line
  match search testname_regex line with
  | some [] => s
  | some test =>
    { s with
      results := assign s.results test (s.compresult ++ s.runresult)
      compresult := []
      runresult := [] }
  | none =>
    match search compiler_regex line with
    | some result => { s with compresult := result }
    | none =>
      match search runtime_regex line with
      | some result => { s with runresult := result }
      | none => s

def parse (s : Globals) (file : List Text) : Globals := file.foldl parseLine s

def kindOf (status : Text) : Option Kind :=
  if status = "PASSPASS".toList then some .passing
  else if status = "FAIL".toList then some .makeFail
  else if status = "PASSFAIL".toList then some .failing
  else none

/-- `checkstatus`: the name of the test is appended to a temporary file. An empty status is an error of
`[` in `check_openmpvv.sh`, which counts as a status without a list. -/
def checkstatus (version : Version) (s : Globals) (test : Text × Text) : Globals :=
  let s := { s with tmpfiles := some version }
  match kindOf test.2 with
  | some kind =>
    let file := some ((s.tmp version kind).getD [] ++ [test.1])
    { s with tmp := Function.update s.tmp version (Function.update (s.tmp version) kind file) }
  | none => s

/-- `rm -f` of the temporary files. -/
def removeTmp (s : Globals) : Globals :=
  match s.tmpfiles with
  | some version => { s with tmp := Function.update s.tmp version fun _ => none }
  | none => s

/-- `sort tmpfile > list`, if the temporary file exists. -/
def sortTmp (le : Text → Text → Bool) (version : Version) (s : Globals) (kind : Kind) : Globals :=
  match s.tmpfiles.bind fun u => s.tmp u kind with
  | some names =>
    let list := some (names.mergeSort le)
    { s with lists := Function.update s.lists version (Function.update (s.lists version) kind list) }
  | none => s

/-- `checkresult`; the tests of the associative array come in some order. -/
def checkresult (le : Text → Text → Bool) (s : Globals) (version : Version) : Globals :=
  let s := removeTmp s
  let s := s.results.foldl (checkstatus version) s
  let s := [.passing, .makeFail, .failing].foldl (sortTmp le version) s
  removeTmp s

def checkVersion (le : Text → Text → Bool) (file : Version → List Text) (s : Globals)
    (version : Version) : Globals :=
  let s := parse { s with results := [] } (file version)
  let s := checkresult le s version
  { s with results := [] }

/-- The script starts on reports without lists. -/
def Globals.init : Globals := ⟨[], [], [], none, fun _ _ => none, fun _ _ => none⟩

def checkAll (le : Text → Text → Bool) (file : Version → List Text) (vers : List Version) : Globals :=
  vers.foldl (checkVersion le file) Globals.init

/-- A result is there, or its field is empty. -/
inductive Result
  | PASS
  | FAIL
  | empty
  deriving DecidableEq

def Result.text : Result → Text
  | PASS => "PASS".toList
  | FAIL => "FAIL".toList
  | empty => []

def isNameChar (c : Char) : Bool := c.isAlphanum || c ∈ ['_', '.', '/', '-', '+']

/-- The name of a test, as of a file. -/
structure TestName where
  text : Text
  nonempty : text ≠ []
  plain : text.all isNameChar
  no_option : text.head? ≠ some '-'
  deriving DecidableEq

/-- What surrounds a field in its line. -/
structure Layout where
  before : Text
  comma : Bool
  after : Text
  before_blank : before.all isBlank
  after_blank : after.all isBlank

def field (key value : Text) (comma : Bool) : Text :=
  '"' :: (key ++ ('"' :: ':' :: ' ' :: '"' :: (value ++ '"' :: if comma then [','] else [])))

def fieldLine (layout : Layout) (key value : Text) : Text :=
  layout.before ++ (field key value layout.comma ++ layout.after)

/-- A line with none of the three fields. -/
structure OtherLine where
  text : Text
  no_testname : search testname_regex (strip text) = none
  no_compiler : search compiler_regex (strip text) = none
  no_runtime : search runtime_regex (strip text) = none

/-- The result of one test: both results in either order, then its name, among other lines. -/
structure Object where
  compiler : Result
  runtime : Result
  name : TestName
  compilerFirst : Bool
  compilerLayout : Layout
  runtimeLayout : Layout
  nameLayout : Layout
  first : List OtherLine
  second : List OtherLine
  third : List OtherLine
  fourth : List OtherLine

namespace Object

variable (o : Object)

def compilerLine : Text := fieldLine o.compilerLayout "Compiler result".toList o.compiler.text

def runtimeLine : Text := fieldLine o.runtimeLayout "Runtime result".toList o.runtime.text

def nameLine : Text := fieldLine o.nameLayout "Test name".toList o.name.text

def lines : List Text :=
  o.first.map OtherLine.text
    ++ (if o.compilerFirst then o.compilerLine else o.runtimeLine) :: (o.second.map OtherLine.text
    ++ (if o.compilerFirst then o.runtimeLine else o.compilerLine) :: (o.third.map OtherLine.text
    ++ o.nameLine :: o.fourth.map OtherLine.text))

/-- The two results, put together. -/
def status : Text := o.compiler.text ++ o.runtime.text

end Object

/-- The results of one version: a list of objects. -/
structure ResultsFile where
  head : List OtherLine
  objects : List Object

def ResultsFile.lines (f : ResultsFile) : List Text :=
  f.head.map OtherLine.text ++ f.objects.flatMap Object.lines

theorem strip_fieldLine (layout : Layout) (key value : Text) :
    strip (fieldLine layout key value) = field key value layout.comma := by
  have hfront : (fieldLine layout key value).dropWhile isBlank
      = field key value layout.comma ++ layout.after := by
    rw [fieldLine, List.dropWhile_append_of_pos]
    · rfl
    · exact List.all_eq_true.mp layout.before_blank
  have hback : (field key value layout.comma).reverse.dropWhile isBlank
      = (field key value layout.comma).reverse := by
    cases layout.comma <;> simp [field, isBlank]
  rw [strip, hfront, List.reverse_append, List.dropWhile_append_of_pos, hback, List.reverse_reverse]
  intro c hc
  rw [List.mem_reverse] at hc
  exact List.all_eq_true.mp layout.after_blank c hc

theorem search_compiler (r : Result) (comma : Bool) :
    search testname_regex (field "Compiler result".toList r.text comma) = none
      ∧ search compiler_regex (field "Compiler result".toList r.text comma)
        = (if r.text = [] then none else some r.text)
      ∧ search runtime_regex (field "Compiler result".toList r.text comma) = none := by
  cases r <;> cases comma <;> decide

theorem search_runtime (r : Result) (comma : Bool) :
    search testname_regex (field "Runtime result".toList r.text comma) = none
      ∧ search compiler_regex (field "Runtime result".toList r.text comma) = none
      ∧ search runtime_regex (field "Runtime result".toList r.text comma)
        = (if r.text = [] then none else some r.text) := by
  cases r <;> cases comma <;> decide

/-- The last quote ends the name. -/
theorem toLastQuote_append {rest : Text} (text : Text) (hrest : '"' ∉ rest) :
    toLastQuote (text ++ '"' :: rest) = some text := by
  have hdrop : (text ++ '"' :: rest).reverse.dropWhile (· ≠ '"') = '"' :: text.reverse := by
    rw [List.reverse_append, List.reverse_cons, List.append_assoc, List.dropWhile_append_of_pos]
    · simp
    · intro c hc
      rw [List.mem_reverse] at hc
      rw [decide_eq_true_eq]
      rintro rfl
      exact hrest hc
  rw [toLastQuote, if_pos (by simp), hdrop, List.drop_one, List.tail_cons, List.reverse_reverse]

theorem search_testname (name : TestName) (comma : Bool) :
    search testname_regex (field "Test name".toList name.text comma) = some name.text := by
  have hquote : dropField "Test" "name" (field "Test name".toList name.text comma) = none := by
    simp [dropField, field, List.dropPrefix?]
  have hfield : dropField "Test" "name" (field "Test name".toList name.text comma).tail
      = some (name.text ++ '"' :: if comma then [','] else []) := by
    simp [dropField, field, List.dropPrefix?, dropSpace, isSpace]
  have hname : testname_regex (field "Test name".toList name.text comma).tail = some name.text := by
    rw [testname_regex, hfield, Option.bind_some, toLastQuote_append]
    cases comma <;> simp
  have htail : (field "Test name".toList name.text comma).tail ≠ [] := by simp [field]
  obtain ⟨c, rest, hrest⟩ := List.exists_cons_of_ne_nil htail
  have hsplit : field "Test name".toList name.text comma = '"' :: c :: rest := by
    rw [← hrest]
    rfl
  rw [hrest] at hname
  rw [hsplit] at hquote ⊢
  rw [search, List.tails_cons, List.findSome?_cons, testname_regex, hquote, Option.bind_none,
    List.tails_cons, List.findSome?_cons, hname]

section Parse

variable (s : Globals)

theorem parseLine_other (line : OtherLine) : parseLine s line.text = s := by
  rw [parseLine, line.no_testname, line.no_compiler, line.no_runtime]

theorem parse_others (lines : List OtherLine) : parse s (lines.map OtherLine.text) = s := by
  induction lines with
  | nil => rfl
  | cons line lines ih =>
    rw [List.map_cons, parse, List.foldl_cons, parseLine_other]
    exact ih

theorem parse_append (file later : List Text) : parse s (file ++ later) = parse (parse s file) later :=
  List.foldl_append

theorem parse_cons (line : Text) (file : List Text) :
    parse s (line :: file) = parse (parseLine s line) file := rfl

theorem parseLine_compiler (layout : Layout) (r : Result) (h : s.compresult = []) :
    parseLine s (fieldLine layout "Compiler result".toList r.text)
      = { s with compresult := r.text } := by
  obtain ⟨htest, hcompiler, hruntime⟩ := search_compiler r layout.comma
  rw [parseLine, strip_fieldLine, htest, hcompiler, hruntime]
  obtain ⟨results, compresult, runresult, tmpfiles, tmp, lists⟩ := s
  subst h
  cases r <;> rfl

theorem parseLine_runtime (layout : Layout) (r : Result) (h : s.runresult = []) :
    parseLine s (fieldLine layout "Runtime result".toList r.text)
      = { s with runresult := r.text } := by
  obtain ⟨htest, hcompiler, hruntime⟩ := search_runtime r layout.comma
  rw [parseLine, strip_fieldLine, htest, hcompiler, hruntime]
  obtain ⟨results, compresult, runresult, tmpfiles, tmp, lists⟩ := s
  subst h
  cases r <;> rfl

theorem parseLine_name (layout : Layout) (name : TestName) :
    parseLine s (fieldLine layout "Test name".toList name.text)
      = { s with
          results := assign s.results name.text (s.compresult ++ s.runresult)
          compresult := []
          runresult := [] } := by
  rw [parseLine, strip_fieldLine, search_testname]
  rcases htext : name.text with _ | ⟨c, text⟩
  · exact absurd htext name.nonempty
  · rfl

/-- An object assigns the status of its test, whatever was read before. -/
theorem parse_object (o : Object) (hcomp : s.compresult = []) (hrun : s.runresult = []) :
    parse s o.lines = { s with results := assign s.results o.name.text o.status } := by
  rw [Object.lines, parse_append, parse_others]
  cases o.compilerFirst with
  | true =>
    rw [if_pos rfl, if_pos rfl, parse_cons, Object.compilerLine, parseLine_compiler s _ _ hcomp,
      parse_append, parse_others, parse_cons, Object.runtimeLine,
      parseLine_runtime { s with compresult := o.compiler.text } _ _ hrun,
      parse_append, parse_others, parse_cons, Object.nameLine, parseLine_name, parse_others]
    cases s
    simp_all [Object.status]
  | false =>
    rw [if_neg (by decide), if_neg (by decide), parse_cons, Object.runtimeLine,
      parseLine_runtime s _ _ hrun, parse_append, parse_others, parse_cons, Object.compilerLine,
      parseLine_compiler { s with runresult := o.runtime.text } _ _ hcomp, parse_append, parse_others,
      parse_cons, Object.nameLine, parseLine_name, parse_others]
    cases s
    simp_all [Object.status]

def statuses (objects : List Object) : List (Text × Text) :=
  objects.map fun o => (o.name.text, o.status)

/-- After all objects the array holds the status of the last object of each test. -/
theorem parse_objects (objects : List Object) (hcomp : s.compresult = []) (hrun : s.runresult = []) :
    parse s (objects.flatMap Object.lines)
      = { s with
          results := (statuses objects).foldl (fun array e => assign array e.1 e.2) s.results } := by
  induction objects generalizing s with
  | nil => rfl
  | cons o objects ih =>
    rw [List.flatMap_cons, parse_append, parse_object s o hcomp hrun,
      ih { s with results := assign s.results o.name.text o.status } hcomp hrun]
    rfl

theorem parse_lines (f : ResultsFile) (hcomp : s.compresult = []) (hrun : s.runresult = []) :
    parse { s with results := [] } f.lines = { s with results := assignAll (statuses f.objects) } := by
  rw [ResultsFile.lines, parse_append, parse_others,
    parse_objects { s with results := [] } _ hcomp hrun]
  rfl

end Parse

end Aomp.Testing.Conformance
