import Mathlib
import Aomp.Foundations.TextSearch

/-!
# The LLNL tests: test.py writes a log, parse_LLNL.sh reads it

The two programs share nothing but the text of the log. `test.py` prints a line for a source file
whose compiler reports an error, the output of every link, and one verdict for every test it
runs; `parse_LLNL.sh` finds the verdicts again with three regular expressions.
-/

namespace Aomp.Testing.LLNL

open Foundations

abbrev Text := List Char

def isSpace (c : Char) : Bool := c ∈ [' ', '\t', '\n', '\x0b', '\x0c', '\r']

/-- `str.split()` -/
def splitFrom (cur : Text) : Text → List Text
  | [] => if cur = [] then [] else [cur]
  | c :: s =>
    if isSpace c then
      if cur = [] then splitFrom [] s else cur :: splitFrom [] s
    else splitFrom (cur ++ [c]) s

def split (line : Text) : List Text := splitFrom [] line

/-- Where `str.splitlines()` breaks. -/
def isLineBoundary (c : Char) : Bool :=
  c ∈ ['\n', '\r', '\x0b', '\x0c', '\x1c', '\x1d', '\x1e', '\u0085', '\u2028', '\u2029']

/-- `str.splitlines()` -/
def splitlinesFrom (cur : Text) : Text → List Text
  | [] => if cur = [] then [] else [cur]
  | '\r' :: '\n' :: s => cur :: splitlinesFrom [] s
  | c :: s => if isLineBoundary c then cur :: splitlinesFrom [] s else splitlinesFrom (cur ++ [c]) s

def splitlines (stdout : Text) : List Text := splitlinesFrom [] stdout

/-- `print(*args, end=ending)` -/
def print (args : List Text) (ending : Text) : Text := [' '].intercalate args ++ ending

def newline : Text := ['\n']

def str (n : ℕ) : Text := Nat.toDigits 10 n

/-- What a finished command leaves: its output, with the error stream, and its return code. -/
structure Process where
  stdout : Text
  returncode : ℤ

def Process.mentions (p : Process) (word : Text) : Bool := (splitlines p.stdout).any (word <:+: ·)

abbrev Test := Text × List Text

/-- `d[key].append(s)` for `d=defaultdict(list)`, the keys in the order of their insertion. -/
def append (d : List Test) (key s : Text) : List Test :=
  if key ∈ d.map Prod.fst then d.map fun e => if e.1 = key then (e.1, e.2 ++ [s]) else e
  else d ++ [(key, [s])]

/-- `sline[0][:-4]` -/
def keyOf (sline : List Text) : Text :=
  let first := sline.headD []
  first.take (first.length - 4)

def get_tests (infile : List Text) : List Test :=
  infile.foldl (fun d line =>
    let sline := split line
    sline.foldl (fun d s => append d (keyOf sline) s) d) []

/-- What the run depends on: the lines of `test_list` and of `xfail-list`, and what comes out of
compiling the files of a test, by position, of linking the test and of running it. -/
structure Suite where
  test_list : List Text
  xfail_list : List Text
  cc : Text → ℕ → Process
  ld : Text → Process
  exe : Text → Process

namespace Suite

variable (S : Suite)

def tests : List Test := get_tests S.test_list

def announced (t : Test) : List Text :=
  (t.2.zipIdx.filter fun v => (S.cc t.1 v.2).mentions "error".toList).map Prod.fst

/-- The test is still `passs` after its files have been compiled. -/
def compiled (t : Test) : Bool :=
  t.2.zipIdx.all fun v =>
    !(S.cc t.1 v.2).mentions "error".toList && decide ((S.cc t.1 v.2).returncode = 0)

def linkOutput (v : Text) : List Text → Text
  | [] => []
  | lines :: rest =>
    print [lines] newline ++
      if "error".toList <:+: lines then print ["Linking of ".toList, v, " failed\n".toList] newline
      else linkOutput v rest

/-- What `compile` prints for one test. -/
def compileOutput (t : Test) : Text :=
  ((S.announced t).flatMap fun v => print ["Compilation of ".toList, v, " failed".toList] newline) ++
    if S.compiled t then
      print ["Compiling ".toList, t.1] newline ++
        linkOutput (t.2.getLastD []) (splitlines (S.ld t.1).stdout)
    else []

def built (t : Test) : Bool := S.compiled t && decide ((S.ld t.1).returncode = 0)

def runnables : List Text := (S.tests.filter S.built).map Prod.fst

def complains (t : Text) : Bool := (S.exe t).mentions "error".toList || (S.exe t).mentions "FAIL".toList

def passs (t : Text) : Bool := !S.complains t && decide ((S.exe t).returncode = 0)

/-- The verdict that `run` prints after the name; a test that exits with another code than 0 and
has not complained gets none. -/
def verdict (t : Text) : Option Text :=
  if S.complains t then some "Failed".toList
  else if (S.exe t).returncode = 0 then some "Passed".toList
  else none

/-- What `run` prints. -/
def runOutput : List Text → Text
  | [] => []
  | t :: tests =>
    print ["Running ".toList, t, "...".toList] [' '] ++
      (match S.verdict t with
        | some passs => print [passs] newline
        | none => []) ++
      runOutput tests

def pass_count : ℕ := S.runnables.countP S.passs

/-- The log of `main`. -/
def log : Text :=
  S.tests.flatMap S.compileOutput ++
  print ["\nRunnable tests are:".toList] newline ++
  (S.runnables.flatMap fun r => print [r] newline) ++
  print [] newline ++
  S.runOutput S.runnables ++
  print ["There are ".toList, str S.tests.length, " tests".toList] newline ++
  print [str S.runnables.length, " tests compiled successfully".toList] newline ++
  print [str S.pass_count, " tests ran successfully".toList] newline

end Suite

/-- `read -r` drops null characters and the blanks around the line. -/
def read (line : Text) : Text :=
  let line := (line.filter (· ≠ '\x00')).dropWhile (· ∈ [' ', '\t'])
  line.rdropWhile (· ∈ [' ', '\t'])

/-- `compile_regex='Compilation.*failed'` -/
def compile_regex (line : Text) : Bool := followedBy "Compilation".toList "failed".toList line

/-- `testname_regex='.*(test_\S*)'`: the greedy start leaves the last `test_` to the group. A line
without one leaves the match empty. -/
def testname_regex (line : Text) : Text :=
  ((lastSuffix ("test_".toList.isPrefixOf ·) line).getD []).takeWhile (!isSpace ·)

def isDots (s : Text) : Bool := "...".toList.isPrefixOf s && (s.drop 3).head?.any isSpace

/-- `\s+([A-Z]*[a-z]*)` -/
def resultOf (s : Text) : Text :=
  let word := s.dropWhile isSpace
  word.takeWhile Char.isUpper ++ (word.dropWhile Char.isUpper).takeWhile Char.isLower

/-- `runtime_regex='Running.+\.\.\.\s+([A-Z]*[a-z]*)'`: the match begins as far left and ends as
far right as it can. -/
def runtime_regex (line : Text) : Option Text :=
  (firstSuffix ("Running".toList.isPrefixOf ·) line).bind fun m =>
    (lastSuffix isDots (m.drop ("Running".length + 1))).map fun d => resultOf (d.drop 3)

/-- The files with the verdicts. -/
inductive Outfile
  | passing_tests
  | failing_tests
  | xfail_tests
  | make_fail
  deriving DecidableEq

/-- `grep -Fq "$llnltest" xfail-list` -/
def grep (xfail_list : List Text) (llnltest : Text) : Bool := xfail_list.any (llnltest <:+: ·)

def outfile (xfail_list : List Text) (result llnltest : Text) : Outfile :=
  if result = "Passed".toList then .passing_tests
  else if grep xfail_list llnltest then .xfail_tests
  else .failing_tests

/-- What `parse` records for one line. -/
def parseLine (xfail_list : List Text) (line : Text) : List (Outfile × Text) :=
  let llnltest := testname_regex line
  (if compile_regex line then [(.make_fail, llnltest)] else []) ++
    match runtime_regex line with
    | some result => [(outfile xfail_list result llnltest, llnltest)]
    | none => []

def parse (xfail_list : List Text) (infile : Text) : List (Outfile × Text) :=
  (linesFrom '\n' [] infile).flatMap fun line => parseLine xfail_list (read line)

def isNameChar (c : Char) : Bool := c.isAlphanum || c ∈ ['_', '.', '-']

def isGraph (c : Char) : Bool := '!' ≤ c && c ≤ '~'

/-- A source file of a test: `test_`, a name and a suffix of four characters. -/
def IsName (s : Text) : Prop :=
  ∃ body suffix, s = "test_".toList ++ body ++ suffix ∧ suffix.length = 4 ∧
    (∀ c ∈ body, isNameChar c = true) ∧ ∀ c ∈ suffix, isGraph c = true

namespace Suite

variable (S : Suite)

def records : List (Outfile × Text) := parse S.xfail_list S.log

/-- The lines of one file. -/
def file (f : Outfile) : List Text := (S.records.filter (·.1 = f)).map Prod.snd

/-- The lines of `test_list` name source files. -/
def WellFormed : Prop := ∀ line ∈ S.test_list, ∀ s ∈ split line, IsName s

/-- The name of the test is a word of a line of `xfail-list`. -/
def listed (t : Text) : Bool := S.xfail_list.any fun line => t ∈ split line

/-- The test is in exactly one file, once, and in the file where it belongs. -/
structure RecordedOnce (t : Test) : Prop where
  once : (S.file .passing_tests ++ S.file .failing_tests ++ S.file .xfail_tests ++
    S.file .make_fail).count t.1 = 1
  passing : t.1 ∈ S.file .passing_tests ↔ S.built t = true ∧ S.passs t.1 = true
  make_fail : t.1 ∈ S.file .make_fail ↔ S.built t = false
  xfail : t.1 ∈ S.file .xfail_tests →
    S.built t = true ∧ S.passs t.1 = false ∧ S.listed t.1 = true

end Suite

end Aomp.Testing.LLNL
