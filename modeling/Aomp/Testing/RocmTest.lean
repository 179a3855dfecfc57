import Mathlib

/-!
# The verdict of the nightly run

`copyresults` compares the passing tests of a suite with the expected ones, takes off the
failures it can excuse and adds the rest to one total; `checkrc` counts scripts that failed.
The summary tests the total with `-gt 0`, and the exit status is the total modulo 256. Results are
counted in lines and excuses in words.
-/

namespace Aomp.Testing

/-- The suites that `copyresults` is called for. -/
inductive Suite
  | examples_fortran
  | examples_openmp
  | smoke
  | smoke_asan
  | smoke_fails
  | smoke_dev
  | smoke_limbo
  | smoke_fort
  | smoke_fort_limbo
  | omp5
  | openmpapps
  | nekbone
  | sollve45
  | sollve50
  | sollve51
  | sollve52
  | babelstream
  | fortran_babelstream
  | LLNL
  | ovo
  | accel2023
  | hpc2021
  deriving DecidableEq

/-- How a missing test of the suite may be excused. -/
inductive ExcuseBy
  /-- `[[ "$1" =~ examples|smoke|omp5 ]]`: by the directory of the test. -/
  | directory
  /-- `[[ "$1" =~ sollve|ovo|LLNL|openmpapps ]]` or `accel2023|hpc2021`: by the list of all tests. -/
  | allTests
  | nothing
  deriving DecidableEq

namespace Suite

def blockinglist : List Suite :=
  [examples_fortran, examples_openmp, smoke, smoke_limbo, openmpapps, sollve45, sollve50,
    babelstream, ovo, accel2023, hpc2021, nekbone, smoke_fort, smoke_fort_limbo]

def notAllMustPass (suite : Suite) : Bool := suite ≠ smoke && suite ≠ smoke_limbo

/-- The call of `copyresults` has a second argument. -/
def hasDirectory : Suite → Bool
  | examples_fortran | examples_openmp | smoke | smoke_asan | smoke_dev | smoke_limbo
  | smoke_fort | smoke_fort_limbo | omp5 => true
  | _ => false

def excuseBy : Suite → ExcuseBy
  | examples_fortran | examples_openmp | smoke | smoke_asan | smoke_fails | smoke_dev | smoke_limbo
  | smoke_fort | smoke_fort_limbo | omp5 => .directory
  | sollve45 | sollve50 | sollve51 | sollve52 | ovo | LLNL | openmpapps => .allTests
  | accel2023 | hpc2021 => .allTests
  | nekbone | babelstream | fortran_babelstream => .nothing

/-- The suite counts: any suite, in EPSDB mode those of `blockinglist`. -/
def counted (epsdb : Bool) (suite : Suite) : Bool := !epsdb || suite ∈ blockinglist

end Suite

/-- What a `for` loop takes from a line. The name of a test is one word. -/
abbrev Word := String

/-- A test: its name, and a number where one directory holds several tests. -/
structure Test where
  name : Word
  number : Option ℕ
  deriving DecidableEq

/-- The lines of the logs and of the pass lists: `name` or `name k`, the same followed by
`: Make Failed`, and `name make check failed: rc`. -/
inductive Line
  | test (t : Test)
  | makeFailed (t : Test)
  | makeCheckFailed (name : Word) (rc : ℕ)
  deriving DecidableEq

namespace Line

def about : Line → Test
  | test t => t
  | makeFailed t => t
  | makeCheckFailed name _ => ⟨name, none⟩

def words : Line → List Word
  | test ⟨name, none⟩ => [name]
  | test ⟨name, some k⟩ => [name, toString k]
  | makeFailed ⟨name, none⟩ => [name ++ ":", "Make", "Failed"]
  | makeFailed ⟨name, some k⟩ => [name, toString k ++ ":", "Make", "Failed"]
  | makeCheckFailed name rc => [name, "make", "check", "failed:", toString rc]

/-- `sed 's/\: Make Failed//'` -/
def strip : Line → Line
  | makeFailed t => test t
  | line => line

end Line

/-- The directory of a test after the run. A log is missing, or says "skipped" or not. -/
structure TestDir where
  make_log : Option Bool
  run_log : Option Bool
  makefile : Bool

def unsupported : Option TestDir → Bool
  | none => false
  | some dir =>
    match dir.make_log with
    | none => false
    | some true => true
    | some false => dir.run_log = some true

def notpresent : Option TestDir → Bool
  | none => true
  | some dir => !dir.makefile

/-- What one call of `copyresults` reads: the lines of the files in the suite's directory, the
pass list of each included version that has one, the directories below the one that is passed and
which lines `grep -e "^$fail$"` selects. -/
structure SuiteRun where
  suite : Suite
  failing_tests : Option (List Line)
  make_fail : Option (List Line)
  passing_tests : Option (List Line)
  ver_passes : List (Option (List Line))
  testdir : Word → Option TestDir
  grep : Word → Line → Bool

namespace SuiteRun

variable (r : SuiteRun)

def exp_passes : List Line := (r.ver_passes.map (·.getD [])).flatten

/-- The lines of `make-fail.txt` as they are appended to other files. -/
def stripped : Option (List Line) := r.make_fail.map (·.map Line.strip)

end SuiteRun

/-- The files of the suite in the results directory. -/
structure ResultsDir where
  failing_tests : Option (List Line)
  make_fail : Option (List Line)
  passing_tests : Option (List Line)
  failing_tests_combined : Option (List Line)
  all_tests : Option (List Line)
  combined_exp_passes : List Line

/-- The variables of the script. -/
structure Script where
  scriptfails : ℕ
  totalunexpectedfails : ℤ
  numtests : ℕ
  results : Suite → ResultsDir

def Script.init : Script := ⟨0, 0, 0, fun _ => ⟨none, none, none, none, none, []⟩⟩

/-- `cat source >> file`, if `source` exists. -/
def appendFile (file source : Option (List Line)) : Option (List Line) :=
  match source with
  | none => file
  | some lines => some (file.getD [] ++ lines)

def ResultsDir.copy (d : ResultsDir) (r : SuiteRun) : ResultsDir where
  failing_tests := r.failing_tests.or d.failing_tests
  make_fail := r.make_fail.or d.make_fail
  passing_tests := r.passing_tests.or d.passing_tests
  failing_tests_combined := appendFile (appendFile d.failing_tests_combined r.failing_tests) r.stripped
  all_tests := appendFile (appendFile (appendFile d.all_tests r.failing_tests) r.stripped) r.passing_tests
  combined_exp_passes :=
    if r.suite.notAllMustPass then d.combined_exp_passes ++ r.exp_passes else d.combined_exp_passes

section

variable (d : ResultsDir) (r : SuiteRun)

def passlines : ℕ := if r.suite.notAllMustPass then d.combined_exp_passes.length else 0

/-- The lines of `diff` that start with `<`. Both files are sorted, so these are the expected
passes that are left over when every passing line takes one away. -/
def onlyExpected (passes : List Line) : List Line := d.combined_exp_passes.diff passes

def failureLines : ℕ := (d.failing_tests.getD []).length + (d.make_fail.getD []).length

def unexcused (passes : List Line) : ℕ :=
  if passlines d r ≠ 0 then (onlyExpected d passes).length
  else if r.suite.notAllMustPass then 0 else failureLines d

/-- The lines that `fails` is made of. -/
def failLines (passes : List Line) : List Line :=
  if r.suite.notAllMustPass then onlyExpected d passes else d.failing_tests_combined.getD []

def fails (passes : List Line) : List Word := (failLines d r passes).flatMap Line.words

/-- One loop over `fails`, with a decrement for each word that `excuse` holds of. -/
def excuseLoop (excuse : Word → Bool) (fails : List Word) (unexpectedfails : ℤ) : ℤ :=
  fails.foldl (fun n fail => if excuse fail then n - 1 else n) unexpectedfails

def checkFails (fails : List Word) (unexpectedfails : ℤ) : ℤ :=
  match r.suite.excuseBy with
  | .directory =>
    let n :=
      if d.all_tests.isSome then
        excuseLoop (fun fail => r.suite.hasDirectory && unsupported (r.testdir fail)) fails unexpectedfails
      else unexpectedfails
    if d.make_fail.isSome then
      excuseLoop (fun fail => r.suite.hasDirectory && notpresent (r.testdir fail)) fails n
    else n
  | .allTests =>
    match d.all_tests with
    | none => unexpectedfails
    | some tests => excuseLoop (fun fail => !tests.any (r.grep fail)) fails unexpectedfails
  | .nothing => unexpectedfails

end

/-- `copyresults`; `numtests` is a global variable that a must-pass suite adds to. -/
def copyresults (epsdb : Bool) (s : Script) (r : SuiteRun) : Script :=
  let d := (s.results r.suite).copy r
  let s := { s with results := Function.update s.results r.suite d }
  let add (s : Script) (n : ℤ) : Script :=
    if r.suite.counted epsdb then { s with totalunexpectedfails := s.totalunexpectedfails + n } else s
  match d.passing_tests with
  | some passes =>
    let n : ℤ := unexcused d r passes
    add s (if n ≠ 0 then checkFails d r (fails d r passes) n else n)
  | none =>
    let numtests :=
      if passlines d r ≠ 0 then d.combined_exp_passes.length
      else if r.suite.notAllMustPass then 0 else s.numtests + failureLines d
    add { s with numtests := numtests } numtests

inductive Step
  | checkrc (rc : ℕ)
  | copyresults (r : SuiteRun)

def step (epsdb : Bool) (s : Script) : Step → Script
  | .checkrc rc => if rc ≠ 0 then { s with scriptfails := s.scriptfails + 1 } else s
  | .copyresults r => copyresults epsdb s r

def run (epsdb : Bool) (s : Script) (steps : List Step) : Script :=
  steps.foldl (step epsdb) s

namespace Script

variable (s : Script)

def pass : Bool := !(s.totalunexpectedfails > 0 || s.scriptfails ≠ 0)

/-- `exit $totalunexpectedfails` -/
def exitStatus : ℤ := s.totalunexpectedfails % 256

end Script

section

variable (d : ResultsDir) (r : SuiteRun)

/-- How often a word is excused: as unsupported and as gone, or as not in the list of all tests. -/
def excuses (fail : Word) : ℕ :=
  match r.suite.excuseBy with
  | .directory =>
    (if d.all_tests.isSome && r.suite.hasDirectory && unsupported (r.testdir fail) then 1 else 0) +
      if d.make_fail.isSome && r.suite.hasDirectory && notpresent (r.testdir fail) then 1 else 0
  | .allTests =>
    match d.all_tests with
    | none => 0
    | some tests => if tests.any (r.grep fail) then 0 else 1
  | .nothing => 0

theorem excuseLoop_eq (excuse : Word → Bool) (fails : List Word) (n : ℤ) :
    excuseLoop excuse fails n = n - ((fails.map fun t => if excuse t then 1 else 0).sum : ℕ) := by
  induction fails generalizing n with
  | nil => simp [excuseLoop]
  | cons t fails ih =>
    have hloop : excuseLoop excuse (t :: fails) n =
        excuseLoop excuse fails (if excuse t then n - 1 else n) := rfl
    rw [hloop, ih, List.map_cons, List.sum_cons]
    split_ifs <;> push_cast <;> omega

theorem excuseLoop_if (b : Bool) (excuse : Word → Bool) (fails : List Word) (n : ℤ) :
    (if b then excuseLoop excuse fails n else n) =
      n - ((fails.map fun t => if b && excuse t then 1 else 0).sum : ℕ) := by
  cases b with
  | true => simp [excuseLoop_eq]
  | false => simp

/-- The loops take off the excuses granted. -/
theorem checkFails_eq (fails : List Word) (n : ℤ) :
    checkFails d r fails n = n - ((fails.map (excuses d r)).sum : ℕ) := by
  unfold checkFails excuses
  cases r.suite.excuseBy with
  | nothing => simp
  | allTests =>
    cases d.all_tests with
    | none => simp
    | some tests =>
      simp only [excuseLoop_eq]
      congr 3
      apply List.map_congr_left
      intro t _
      cases tests.any (r.grep t) <;> rfl
  | directory =>
    simp only [List.sum_map_add, excuseLoop_if, Bool.and_assoc]
    push_cast
    omega

/-- The lines that a call of `copyresults` counts: the unexpected fails, and without passing tests all
expected passes (must-pass suites: all failures, on top of what an earlier suite left in `numtests`). -/
def countedLines (numtests : ℕ) : ℕ :=
  match d.passing_tests with
  | some passes => unexcused d r passes
  | none =>
    if passlines d r ≠ 0 then d.combined_exp_passes.length
    else if r.suite.notAllMustPass then 0 else numtests + failureLines d

def checkedLines : List Line :=
  match d.passing_tests with
  | some passes => if unexcused d r passes = 0 then [] else failLines d r passes
  | none => []

def checkedWords (t : Test) : List Word := ((checkedLines d r).filter (·.about = t)).flatMap Line.words

def taken (t : Test) : ℕ := ((checkedWords d r t).map (excuses d r)).sum

/-- What a call of `copyresults` counts: lines less the excuses granted to their words. -/
def count (numtests : ℕ) : ℤ :=
  countedLines d r numtests - ((((checkedLines d r).flatMap Line.words).map (excuses d r)).sum : ℕ)

end

theorem copyresults_scriptfails (epsdb : Bool) (s : Script) (r : SuiteRun) :
    (copyresults epsdb s r).scriptfails = s.scriptfails := by
  unfold copyresults
  dsimp only
  split <;> split_ifs <;> rfl

theorem copyresults_total (epsdb : Bool) (s : Script) (r : SuiteRun) :
    (copyresults epsdb s r).totalunexpectedfails = s.totalunexpectedfails +
      if r.suite.counted epsdb then count ((s.results r.suite).copy r) r s.numtests else 0 := by
  unfold copyresults count countedLines checkedLines
  dsimp only
  split
  · rename_i passes hpasses
    by_cases hzero : unexcused ((s.results r.suite).copy r) r passes = 0
    · simp [hzero]
    · simp only [checkFails_eq, fails]
      split_ifs <;> simp_all
  · split_ifs <;> simp_all

end Aomp.Testing
