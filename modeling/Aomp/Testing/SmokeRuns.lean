import Mathlib
import Aomp.Foundations.TransitionSystem

/-!
# The smoke tests, in parallel and one after the other

`check_smoke.sh` has the loop over the test directories twice. The sequential one makes and
checks a directory before it goes on. The parallel one starts a job for every build, waits for
all of them, and starts a job for every check; a job whose `make check` fails greps
`make-fail.txt`, which the other jobs append to, before it reports itself. Every test is run once
(`SMOKE_NRUN` and `SMOKE_LRUN` are 1) and the script is not that of `smoke-asan`.
-/

namespace Aomp.Testing.Smoke

open Foundations

/-- How a target of the Makefile ends after the build: the command is run and its status is
written to a file, or the target itself fails with another return code than 0. -/
inductive CheckResult
  | status (n : ℕ)
  | failed (rc : ℕ)
  deriving DecidableEq

/-- A directory with the common `Makefile.rules` and what comes out of it, in both modes and every
time it is built: whether the GPU is one of the supported ones, whether `make` succeeds, and how
`check` and `verify-log` end. -/
structure TestDir where
  base : String
  supported : Bool
  builds : Bool
  check : CheckResult
  verify : CheckResult
  deriving DecidableEq

/-- What a call of `make` leaves: a status that was reported and the return code. -/
structure Made where
  status : Option ℕ
  rc : ℕ

def CheckResult.made : CheckResult → Made
  | .status n => ⟨some n, 0⟩
  | .failed rc => ⟨none, rc + 1⟩

namespace TestDir

variable (d : TestDir)

def make : ℕ := if d.builds then 0 else 2

/-- `make check`: the target depends on the build, and does nothing for another GPU. -/
def make_check : Made :=
  if !d.builds then ⟨none, 2⟩
  else if d.supported then d.check.made
  else ⟨none, 0⟩

/-- `make verify-log`: the run is skipped for another GPU, the verification is not. -/
def make_verify_log : Made := if !d.builds then ⟨none, 2⟩ else d.verify.made

end TestDir

/-- The names that the script treats in a way of their own. -/
inductive Kind
  /-- devices and stream -/
  | visual
  | verifyLog
  | flags
  | liba
  | gpus
  | other
  deriving DecidableEq

def kind (base : String) : Kind :=
  if base = "devices" ∨ base = "stream" then .visual
  else if base = "printf_parallel_for_target" ∨ base = "omp_places" ∨ base = "pfspecifier" ∨
    base = "pfspecifier_str" then .verifyLog
  else if base = "flags" then .flags
  else if base = "liba_bundled" ∨ base = "liba_bundled_cmdline" then .liba
  else if base = "gpus" then .gpus
  else .other

inductive File
  | passing_tests
  | failing_tests
  | make_fail
  deriving DecidableEq

/-- A line of a file: the name of the test and the text after it. -/
structure Line where
  file : File
  name : String
  rest : String
  deriving DecidableEq

def Line.text (l : Line) : String := l.name ++ l.rest

def names (f : File) (files : List Line) : List String := (files.filter (·.file = f)).map (·.name)

/-- What `check` and `verify-log` report. -/
def Made.lines (m : Made) (base : String) : List Line :=
  match m.status with
  | none => []
  | some n => [⟨if n = 0 then .passing_tests else .failing_tests, base, ""⟩]

def makeFailed (base : String) : Line := ⟨.make_fail, base, ": Make Failed"⟩

/-- The number that `gatherdata` prints: the variable is set by the first file that exists. -/
def gatherdata (files : List Line) : Option ℕ :=
  let passing := (names .passing_tests files).length
  let make_fail := (names .make_fail files).length
  let failing := (names .failing_tests files).length
  let total_tests := if passing = 0 then none else some passing
  let total_tests := if make_fail = 0 then total_tests else some (total_tests.getD 0 + make_fail)
  if failing = 0 then total_tests else some (total_tests.getD 0 + failing)

/-- What both loops depend on besides the directories: the skip list, whether rocblas is installed
and which lines `grep -E` selects. -/
structure Env where
  skip_tests : List String
  rocblas : Bool
  grep : String → String → Bool

namespace Env

variable (env : Env)

/-- `ROCBLAS NOT FOUND!!! SKIPPING TEST!` -/
def rocblasMissing (d : TestDir) : Bool := d.base = "hip_rocblas" && !env.rocblas

def sequentialDir (d : TestDir) : List Line :=
  if d.base ∈ env.skip_tests then []
  else if env.rocblasMissing d then []
  else if d.make ≠ 0 then [makeFailed d.base]
  else match kind d.base with
    | .visual => d.make_check.lines d.base
    | .flags => []
    | .gpus => [⟨.passing_tests, d.base, ""⟩]
    | .verifyLog => d.make_verify_log.lines d.base
    | .liba => d.make_check.lines d.base ++ if d.make_check.rc ≠ 0 then [makeFailed d.base] else []
    | .other =>
      d.make_check.lines d.base ++
        if d.make_check.rc ≠ 0 then
          [⟨.make_fail, d.base, " 'make check' failed: " ++ toString d.make_check.rc⟩]
        else []

def sequential (dirs : List TestDir) : List Line := dirs.flatMap env.sequentialDir

/-- Where the jobs of a directory are. -/
inductive Stage
  | make
  | check
  /-- `make check` has failed; the last field tells whether the grep found a line. -/
  | guard (rc : ℕ) (mytest : Bool)
  | done
  deriving DecidableEq

structure State where
  files : List Line
  stage : TestDir → Stage

def makeLines (d : TestDir) : List Line :=
  if d.make ≠ 0 then [makeFailed d.base]
  else if kind d.base = .gpus then [⟨.passing_tests, d.base, ""⟩]
  else []

def checkLines (d : TestDir) : List Line :=
  match kind d.base with
  | .visual => d.make_check.lines d.base
  | .verifyLog => d.make_verify_log.lines d.base
  | .flags | .gpus => []
  | .liba => d.make_check.lines d.base ++ if d.make_check.rc ≠ 0 then [makeFailed d.base] else []
  | .other => d.make_check.lines d.base

def checkFailed (d : TestDir) (rc : ℕ) : Line :=
  ⟨.make_fail, d.base, " make check failed: " ++ toString rc⟩

/-- `mytest=$(grep -E "$base:" ../make-fail.txt)` finds something. -/
def mytest (files : List Line) (d : TestDir) : Bool :=
  files.any fun l => l.file = .make_fail && env.grep (d.base ++ ":") l.text

def State.set (s : State) (lines : List Line) (d : TestDir) (stage : Stage) : State :=
  ⟨s.files ++ lines, Function.update s.stage d stage⟩

/-- The next step of the jobs of one directory. No check starts before every directory is made. -/
def step (dirs : List TestDir) (s : State) (d : TestDir) : Option State :=
  if d ∈ dirs then
    match s.stage d with
    | .make => some (s.set (makeLines d) d .check)
    | .check =>
      if dirs.all (s.stage · ≠ .make) then
        if kind d.base = .other ∧ d.make_check.rc ≠ 0 then
          some (s.set (checkLines d) d (.guard d.make_check.rc (env.mytest s.files d)))
        else some (s.set (checkLines d) d .done)
      else none
    | .guard rc mytest =>
      some (s.set (if names .make_fail s.files = [] ∨ mytest = false then [checkFailed d rc] else []) d .done)
    | .done => none
  else none

def parallelDirs (dirs : List TestDir) : List TestDir := dirs.filter fun d => !env.rocblasMissing d

/-- The states of all orders in which the jobs run. -/
def Reaches (dirs : List TestDir) : State → State → Prop :=
  Reachable (env.step (env.parallelDirs dirs)) fun _ _ => True

def start : State := ⟨[], fun _ => .make⟩

/-- The files that a finished parallel run leaves for `gatherdata`. -/
def Parallel (dirs : List TestDir) (files : List Line) : Prop :=
  ∃ s, env.Reaches dirs start s ∧ (∀ d ∈ env.parallelDirs dirs, s.stage d = .done) ∧ s.files = files

def due (d : TestDir) : Bool := !(d.base ∈ env.skip_tests) && !env.rocblasMissing d && d.supported

end Env

def TestDir.target (d : TestDir) : Made :=
  match kind d.base with
  | .verifyLog => d.make_verify_log
  | .gpus => ⟨if d.builds then some 0 else none, d.make⟩
  | .flags => ⟨none, d.make⟩
  | _ => d.make_check

/-- Every due directory is in one file, once, and in the right one, and they are counted. -/
structure Reported (env : Env) (dirs : List TestDir) (files : List Line) : Prop where
  once : ∀ d ∈ dirs, env.due d = true → (files.map (·.name)).count d.base = 1
  make_fail : ∀ d ∈ dirs, env.due d = true →
    (d.base ∈ names .make_fail files ↔ d.make ≠ 0 ∨ d.target.rc ≠ 0)
  passing : ∀ d ∈ dirs, env.due d = true →
    (d.base ∈ names .passing_tests files ↔ d.target.status = some 0)
  number : gatherdata files = some (dirs.countP env.due)

/-- Both modes report the same. -/
def Agree (env : Env) (dirs : List TestDir) : Prop :=
  Reported env dirs (env.sequential dirs) ∧
    ∀ files, env.Parallel dirs files →
      Reported env dirs files ∧ ∀ f name, name ∈ names f files ↔ name ∈ names f (env.sequential dirs)

end Aomp.Testing.Smoke
