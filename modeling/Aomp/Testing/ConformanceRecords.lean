import Aomp.Testing.ConformanceResults
import Aomp.Testing.RocmTest

/-!
# Which conformance tests are recorded

Of the nine pairs of results five have no list, so that a test with such a pair disappears. The nightly
run then takes it for one that was removed.
-/

namespace Aomp.Testing.Conformance

open Foundations
open LLNL (Text)

section Lists

variable (le : Text → Text → Bool) (version : Version)

def namesOf (results : List (Text × Text)) (kind : Kind) : List Text :=
  (results.filter fun test => kindOf test.2 = some kind).map Prod.fst

/-- A file is written when there is something to write. -/
def written (names : List Text) : Option (List Text) := if names = [] then none else some names

@[simp] theorem getD_written (names : List Text) : (written names).getD [] = names := by
  rw [written]
  split <;> simp_all

@[simp] theorem written_concat (names : List Text) (name : Text) :
    written (names ++ [name]) = some (names ++ [name]) := by
  simp [written]

@[simp] theorem namesOf_nil (kind : Kind) : namesOf [] kind = [] := rfl

theorem namesOf_concat (results : List (Text × Text)) (test : Text × Text) (kind : Kind) :
    namesOf (results ++ [test]) kind
      = namesOf results kind ++ if kindOf test.2 = some kind then [test.1] else [] := by
  rw [namesOf, List.filter_append, List.map_append, ← namesOf]
  split <;> simp_all

def tmpAfter (results : List (Text × Text)) : Version → Kind → Option (List Text) :=
  fun u kind => if u = version then written (namesOf results kind) else none

/-- The loop over the tests fills the temporary files. -/
theorem foldl_checkstatus (s : Globals) (results : List (Text × Text)) (htmp : s.tmp = fun _ _ => none) :
    results.foldl (checkstatus version) s =
      { s with
        tmpfiles := if results = [] then s.tmpfiles else some version
        tmp := tmpAfter version results } := by
  induction results using List.reverseRecOn with
  | nil =>
    have hnone : tmpAfter version [] = s.tmp := by
      rw [htmp]
      funext u kind
      simp [tmpAfter, written]
    rw [hnone]
    rfl
  | append_singleton results test ih =>
    rw [List.foldl_append, ih, List.foldl_cons, List.foldl_nil, checkstatus]
    cases hkind : kindOf test.2 with
    | none =>
      have hsame : tmpAfter version (results ++ [test]) = tmpAfter version results := by
        funext u kind
        simp [tmpAfter, namesOf_concat, hkind]
      simp [hsame]
    | some kind =>
      have hmore : tmpAfter version (results ++ [test]) =
        Function.update (tmpAfter version results) version
          (Function.update (tmpAfter version results version) kind
            (some ((tmpAfter version results version kind).getD [] ++ [test.1]))) := by
        funext u k
        by_cases hu : u = version
        · subst hu
          by_cases hk : k = kind
          · simp [tmpAfter, namesOf_concat, hkind, hk]
          · simp [tmpAfter, namesOf_concat, hkind, hk, Ne.symm hk]
        · simp [tmpAfter, hu]
      simp [hmore]

/-- Removing the temporary files of the last version leaves none. -/
theorem removeTmp_eq {s : Globals} (htmp : ∀ u, s.tmpfiles ≠ some u → s.tmp u = fun _ => none) :
    removeTmp s = { s with tmp := fun _ _ => none } := by
  obtain ⟨results, compresult, runresult, tmpfiles, tmp, lists⟩ := s
  cases tmpfiles with
  | none =>
    have hnone : tmp = fun _ _ => none := funext fun u => htmp u (by simp)
    rw [hnone]
    rfl
  | some version =>
    have hnone : Function.update tmp version (fun _ => none) = fun _ _ => none := by
      funext u
      by_cases hu : u = version
      · rw [hu, Function.update_self]
      · rw [Function.update_of_ne hu]
        exact htmp u (by simpa using Ne.symm hu)
    simp [removeTmp, hnone]

theorem sortTmp_eq {s : Globals} {kind : Kind} {names : List Text}
    (htmp : (s.tmpfiles.bind fun u => s.tmp u kind) = written names) :
    sortTmp le version s kind =
      { s with lists := Function.update s.lists version (Function.update (s.lists version) kind
          ((written (names.mergeSort le)).or (s.lists version kind))) } := by
  rw [sortTmp, htmp]
  by_cases hnames : names = []
  · simp [hnames, written]
  · have hsorted : names.mergeSort le ≠ [] := by
      rw [← List.length_pos_iff, List.length_mergeSort, List.length_pos_iff]
      exact hnames
    simp [hnames, hsorted, written]

def sorted (results : List (Text × Text)) (kind : Kind) : Option (List Text) :=
  written ((namesOf results kind).mergeSort le)

theorem foldl_sortTmp {s : Globals} {results : List (Text × Text)}
    (htmp : ∀ kind, (s.tmpfiles.bind fun u => s.tmp u kind) = written (namesOf results kind)) :
    [Kind.passing, .makeFail, .failing].foldl (sortTmp le version) s =
      { s with
        lists := Function.update s.lists version
          fun kind => (sorted le results kind).or (s.lists version kind) } := by
  have hstep (lists : Version → Kind → Option (List Text)) (kind : Kind) :
      sortTmp le version { s with lists := lists } kind =
        { s with lists := Function.update lists version (Function.update (lists version) kind
            ((sorted le results kind).or (lists version kind))) } :=
    sortTmp_eq le version (s := { s with lists := lists }) (htmp kind)
  have hfirst := hstep s.lists .passing
  rw [List.foldl_cons, List.foldl_cons, List.foldl_cons, List.foldl_nil, hfirst, hstep, hstep]
  simp only [Function.update_idem, Function.update_self]
  congr 1
  congr 1
  funext kind
  cases kind <;> simp

/-- A version without results leaves no lists behind, and one with results leaves those of its tests. -/
theorem checkresult_eq (s : Globals) (htmp : s.tmp = fun _ _ => none) :
    (checkresult le s version).lists = Function.update s.lists version
        (fun kind => (sorted le s.results kind).or (s.lists version kind))
      ∧ (checkresult le s version).tmp = (fun _ _ => none)
      ∧ (checkresult le s version).compresult = s.compresult
      ∧ (checkresult le s version).runresult = s.runresult := by
  have hfirst : removeTmp s = s := by
    rw [removeTmp_eq (fun u _ => by rw [htmp]), ← htmp]
  have hbind : ∀ kind, ((if s.results = [] then s.tmpfiles else some version).bind
      fun u => tmpAfter version s.results u kind) = written (namesOf s.results kind) := by
    intro kind
    split
    next hnil =>
      rw [hnil, namesOf_nil]
      cases s.tmpfiles <;> simp [tmpAfter, written]
    next => simp [tmpAfter]
  have hlast : ∀ u, (if s.results = [] then s.tmpfiles else some version) ≠ some u →
      tmpAfter version s.results u = fun _ => none := by
    intro u hu
    funext kind
    rw [tmpAfter]
    split
    next hversion =>
      have hnil : s.results = [] := by
        by_contra hne
        exact hu (by rw [if_neg hne, hversion])
      rw [hnil, namesOf_nil]
      rfl
    next => rfl
  rw [checkresult]
  simp only [hfirst, foldl_checkstatus version s s.results htmp]
  rw [foldl_sortTmp le version hbind, removeTmp_eq hlast]
  exact ⟨rfl, rfl, rfl, rfl⟩

end Lists

section Versions

variable {le : Text → Text → Bool} {file : Version → ResultsFile}

/-- What the loop over the versions keeps: nothing of a version is left but its lists. -/
structure IsDone (le : Text → Text → Bool) (file : Version → ResultsFile) (done : List Version)
    (s : Globals) : Prop where
  compresult : s.compresult = []
  runresult : s.runresult = []
  tmp : s.tmp = fun _ _ => none
  lists : ∀ version kind, s.lists version kind =
    if version ∈ done then sorted le (assignAll (statuses (file version).objects)) kind else none

theorem isDone_init : IsDone le file [] Globals.init := by
  constructor
  · rfl
  · rfl
  · rfl
  · intro version kind
    simp [Globals.init]

theorem IsDone.checkVersion {done : List Version} {s : Globals} (h : IsDone le file done s)
    (version : Version) : IsDone le file (done ++ [version])
      (checkVersion le (fun v => (file v).lines) s version) := by
  have hparse := parse_lines s (file version) h.compresult h.runresult
  obtain ⟨hlists, htmp, hcomp, hrun⟩ := checkresult_eq le version
    { s with results := assignAll (statuses (file version).objects) } h.tmp
  constructor
  · rw [Conformance.checkVersion, hparse]
    exact hcomp.trans h.compresult
  · rw [Conformance.checkVersion, hparse]
    exact hrun.trans h.runresult
  · rw [Conformance.checkVersion, hparse]
    exact htmp
  · intro v kind
    rw [Conformance.checkVersion, hparse]
    apply (congrFun (congrFun hlists v) kind).trans
    by_cases hv : v = version
    · subst hv
      rw [Function.update_self, h.lists]
      split <;> simp
    · rw [Function.update_of_ne hv, h.lists]
      simp [hv]

theorem isDone_checkAll (vers : List Version) :
    IsDone le file vers (checkAll le (fun v => (file v).lines) vers) := by
  induction vers using List.reverseRecOn with
  | nil => exact isDone_init
  | append_singleton vers version ih =>
    rw [checkAll, List.foldl_append]
    exact ih.checkVersion version

end Versions

def Object.outcome (o : Object) : Kind :=
  if o.compiler = .PASS ∧ o.runtime = .PASS then .passing
  else if o.compiler ≠ .PASS then .makeFail
  else .failing

/-- The last object of a test. -/
def ResultsFile.lastObject (f : ResultsFile) (name : Text) : Option Object :=
  lastValue (fun o => if o.name.text = name then some o else none) f.objects

/-- Both results are there after the compiler passed, and one of them after it did not. -/
def Object.IsRegular (o : Object) : Prop :=
  (o.compiler, o.runtime) ∈
    [(Result.PASS, Result.PASS), (.PASS, .FAIL), (.FAIL, .empty), (.empty, .FAIL)]

theorem Object.kindOf_status (o : Object) (kind : Kind) :
    kindOf o.status = some kind ↔ o.IsRegular ∧ o.outcome = kind := by
  rw [status, outcome, IsRegular]
  cases o.compiler <;> cases o.runtime <;> cases kind <;> decide

theorem mem_statuses (f : ResultsFile) (name status : Text) :
    (name, status) ∈ assignAll (statuses f.objects)
      ↔ ∃ o, f.lastObject name = some o ∧ o.status = status := by
  have hvalue : lastValue (fun e => if e.1 = name then some e.2 else none) (statuses f.objects)
      = (f.lastObject name).map Object.status := by
    rw [statuses, lastValue_map, ResultsFile.lastObject, ← lastValue_mapValue]
    congr 1
    funext o
    rw [Function.comp_apply]
    split <;> rfl
  rw [mem_assignAll, hvalue, Option.map_eq_some_iff]

theorem mem_namesOf {results : List (Text × Text)} {kind : Kind} {name : Text} :
    name ∈ namesOf results kind ↔ ∃ status, (name, status) ∈ results ∧ kindOf status = some kind := by
  simp [namesOf]

theorem lastObject_name {f : ResultsFile} {name : Text} {o : Object} (h : f.lastObject name = some o) :
    o.name.text = name := by
  obtain ⟨o', -, ho'⟩ := lastValue_eq_some h
  split at ho'
  next hname =>
    cases ho'
    exact hname
  next => cases ho'

section Recorded

variable {le : Text → Text → Bool} {file : Version → ResultsFile} {vers : List Version}
variable {version : Version}

def listed (le : Text → Text → Bool) (file : Version → ResultsFile) (vers : List Version)
    (version : Version) (kind : Kind) : List Text :=
  ((checkAll le (fun v => (file v).lines) vers).lists version kind).getD []

theorem mem_listed (hversion : version ∈ vers) (name : Text) (kind : Kind) :
    name ∈ listed le file vers version kind
      ↔ ∃ o, (file version).lastObject name = some o ∧ o.IsRegular ∧ o.outcome = kind := by
  rw [listed, (isDone_checkAll vers).lists, if_pos hversion, sorted, getD_written, List.mem_mergeSort,
    mem_namesOf]
  constructor
  · rintro ⟨status, hmem, hkind⟩
    obtain ⟨o, hlast, rfl⟩ := (mem_statuses _ _ _).mp hmem
    exact ⟨o, hlast, (o.kindOf_status kind).mp hkind⟩
  · rintro ⟨o, hlast, hkind⟩
    exact ⟨o.status, (mem_statuses _ _ _).mpr ⟨o, hlast, rfl⟩, (o.kindOf_status kind).mpr hkind⟩

theorem nodup_listed (version : Version) (kind : Kind) :
    (listed le file vers version kind).Nodup := by
  rw [listed, (isDone_checkAll vers).lists]
  split
  · rw [sorted, getD_written, (List.mergeSort_perm _ _).nodup_iff, namesOf]
    exact (nodup_assignAll _).sublist (List.filter_sublist.map _)
  · exact List.nodup_nil

theorem count_listed (hversion : version ∈ vers) (name : Text) (kind : Kind)
    (hregular : ∀ o, (file version).lastObject name = some o → o.IsRegular) :
    (listed le file vers version kind).count name =
      if ((file version).lastObject name).map Object.outcome = some kind then 1 else 0 := by
  rw [(nodup_listed version kind).count]
  apply if_congr _ rfl rfl
  rw [mem_listed hversion, Option.map_eq_some_iff]
  constructor
  · rintro ⟨o, hlast, -, hkind⟩
    exact ⟨o, hlast, hkind⟩
  · rintro ⟨o, hlast, hkind⟩
    exact ⟨o, hlast, hregular o hlast, hkind⟩

end Recorded

/-- The line of a test in a list, as `copyresults` reads it. -/
def testLine (name : Text) : Line := .test ⟨String.ofList name, none⟩

def suiteOf (version : Version) : Option Suite :=
  if version = "45".toList then some .sollve45
  else if version = "50".toList then some .sollve50
  else if version = "51".toList then some .sollve51
  else if version = "52".toList then some .sollve52
  else none

/-- A call of `copyresults` on the lists of a version. A name is found in its own line. -/
structure IsCopyOf (r : SuiteRun) (version : Version) (lists : Kind → Option (List Text)) : Prop where
  suite : suiteOf version = some r.suite
  failing_tests : r.failing_tests = (lists .failing).map (·.map testLine)
  make_fail : r.make_fail = (lists .makeFail).map (·.map testLine)
  passing_tests : r.passing_tests = (lists .passing).map (·.map testLine)
  grep : ∀ name : TestName, r.grep (String.ofList name.text) (testLine name.text) = true

/-- The results directory of a suite that is copied for the first time. -/
def freshDir (r : SuiteRun) : ResultsDir := (Script.init.results r.suite).copy r

/-- The expected passes that are counted as unexpected fails: those that are not among the passing
tests, and all of them when there are no passing tests. -/
def unexpected (d : ResultsDir) : List Line :=
  match d.passing_tests with
  | some passes => onlyExpected d passes
  | none => d.combined_exp_passes

theorem suite_of_suiteOf {version : Version} {suite : Suite} (h : suiteOf version = some suite) :
    suite.notAllMustPass = true ∧ suite.excuseBy = .allTests := by
  rw [suiteOf] at h
  split_ifs at h
  all_goals
    cases h
    decide

theorem testLine_injective : Function.Injective testLine := by
  intro a b h
  have hname : String.ofList a = String.ofList b := congrArg (·.about.name) h
  simpa using congrArg String.toList hname

theorem getD_appendFile (file source : Option (List Line)) :
    (appendFile file source).getD [] = file.getD [] ++ source.getD [] := by
  cases source <;> simp [appendFile]

theorem exists_of_mem_getD {α : Type*} {x : α} {file : Option (List α)} (h : x ∈ file.getD []) :
    ∃ lines, file = some lines ∧ x ∈ lines := by
  cases file with
  | none => simp at h
  | some lines => exact ⟨lines, rfl, h⟩

/-- What is copied from a list of the version ends up in the list of all tests. -/
theorem mem_all_tests {r : SuiteRun} {version : Version} {lists : Kind → Option (List Text)}
    (h : IsCopyOf r version lists) {name : Text} {kind : Kind} (hkind : kind ≠ .passing)
    (hname : name ∈ (lists kind).getD []) :
    ∃ tests, (freshDir r).all_tests = some tests ∧ testLine name ∈ tests := by
  have hstrip (names : List Text) : (names.map testLine).map Line.strip = names.map testLine := by
    rw [List.map_map]
    rfl
  have hall : (freshDir r).all_tests = appendFile (appendFile (appendFile none
      ((lists .failing).map (·.map testLine))) ((lists .makeFail).map (·.map testLine)))
        r.passing_tests := by
    rw [freshDir, ResultsDir.copy, SuiteRun.stripped, h.failing_tests, h.make_fail]
    cases lists .makeFail with
    | none => rfl
    | some names => simp [hstrip, Script.init]
  have hline : testLine name ∈ ((lists kind).map (·.map testLine)).getD [] := by
    obtain ⟨names, hnames, hmem⟩ := exists_of_mem_getD hname
    rw [hnames]
    exact List.mem_map_of_mem hmem
  apply exists_of_mem_getD
  rw [hall, getD_appendFile, getD_appendFile, getD_appendFile]
  cases kind with
  | passing => exact absurd rfl hkind
  | makeFail => simp [hline]
  | failing => simp [hline]

/-- An expected test that is not in the list of passing tests is counted. -/
theorem mem_unexpected {r : SuiteRun} {version : Version} {lists : Kind → Option (List Text)}
    (h : IsCopyOf r version lists) {name : Text} (hname : name ∉ (lists .passing).getD [])
    (hexpected : testLine name ∈ r.exp_passes) : testLine name ∈ unexpected (freshDir r) := by
  have hsome := (suite_of_suiteOf h.suite).1
  have hpasses : (freshDir r).passing_tests = (lists .passing).map (·.map testLine) := by
    rw [freshDir, ResultsDir.copy, ← h.passing_tests]
    exact Option.or_none
  have hcombined : (freshDir r).combined_exp_passes = r.exp_passes := by
    rw [freshDir, ResultsDir.copy, if_pos hsome]
    rfl
  rw [unexpected, hpasses]
  cases hpassing : lists .passing with
  | none =>
    rw [Option.map_none, hcombined]
    exact hexpected
  | some names =>
    rw [hpassing, Option.getD_some] at hname
    have hdiff : testLine name ∈ onlyExpected (freshDir r) (names.map testLine) := by
      rw [onlyExpected, hcombined]
      apply List.mem_diff_of_mem hexpected
      rw [List.mem_map_of_injective testLine_injective]
      exact hname
    exact hdiff

theorem excuses_of_listed {r : SuiteRun} {version : Version} {lists : Kind → Option (List Text)}
    (h : IsCopyOf r version lists) {name : TestName} {kind : Kind} (hkind : kind ≠ .passing)
    (hname : name.text ∈ (lists kind).getD []) :
    excuses (freshDir r) r (String.ofList name.text) = 0 := by
  have hexcuse := (suite_of_suiteOf h.suite).2
  obtain ⟨tests, htests, hmem⟩ := mem_all_tests h hkind hname
  have hmatch : tests.any (r.grep (String.ofList name.text)) = true :=
    List.any_eq_true.mpr ⟨_, hmem, h.grep name⟩
  simp [excuses, hexcuse, htests, hmatch]

/-- Each test is listed once, in the list that it belongs to, and the nightly run counts a test that
should have passed and does not excuse it as removed. -/
structure NothingDisappears (le : Text → Text → Bool) (file : Version → ResultsFile)
    (vers : List Version) : Prop where
  recorded : ∀ version ∈ vers, ∀ name kind, (listed le file vers version kind).count name =
    if ((file version).lastObject name).map Object.outcome = some kind then 1 else 0
  counted : ∀ version ∈ vers, ∀ r,
    IsCopyOf r version ((checkAll le (fun v => (file v).lines) vers).lists version) →
      ∀ name o, (file version).lastObject name = some o → o.outcome ≠ .passing →
        testLine name ∈ r.exp_passes →
          testLine name ∈ unexpected (freshDir r) ∧ excuses (freshDir r) r (String.ofList name) = 0

theorem nothingDisappears_iff (le : Text → Text → Bool) (file : Version → ResultsFile)
    (vers : List Version) : NothingDisappears le file vers
      ↔ ∀ version ∈ vers, ∀ name o, (file version).lastObject name = some o → o.IsRegular := by
  constructor
  · intro h version hversion name o hlast
    have hcount := h.recorded version hversion name o.outcome
    rw [hlast, Option.map_some, if_pos rfl] at hcount
    have hmem : name ∈ listed le file vers version o.outcome := by
      rw [← List.count_pos_iff, hcount]
      exact Nat.one_pos
    obtain ⟨o', hlast', hregular, -⟩ := (mem_listed hversion name o.outcome).mp hmem
    rw [hlast, Option.some_inj] at hlast'
    rw [hlast']
    exact hregular
  · intro h
    constructor
    · intro version hversion name kind
      exact count_listed hversion name kind (h version hversion name)
    · intro version hversion r hcopy name o hlast hfailed hexpected
      have hlisted (kind : Kind) : name ∈ listed le file vers version kind ↔ _ :=
        mem_listed hversion name kind
      constructor
      · apply mem_unexpected hcopy _ hexpected
        intro hpassing
        obtain ⟨o', hlast', -, hkind⟩ := (hlisted .passing).mp hpassing
        rw [hlast, Option.some_inj] at hlast'
        rw [← hlast'] at hkind
        exact hfailed hkind
      · have hregular := h version hversion name o hlast
        have hname := (hlisted o.outcome).mpr ⟨o, hlast, hregular, rfl⟩
        rw [← lastObject_name hlast] at hname ⊢
        exact excuses_of_listed hcopy hfailed hname

def plainLayout : Layout := ⟨[' ', ' '], true, [], by decide, by decide⟩

def bareObject (compiler runtime : Result) (name : TestName) : Object :=
  ⟨compiler, runtime, name, true, plainLayout, plainLayout, plainLayout, [], [], [], []⟩

def testA : TestName := ⟨"a.c".toList, by decide, by decide, by decide⟩

def testB : TestName := ⟨"b.c".toList, by decide, by decide, by decide⟩

/-- The second test compiles with an error, and its old binary fails. -/
def failFail : ResultsFile := ⟨[], [bareObject .PASS .PASS testA, bareObject .FAIL .FAIL testB]⟩

def failFailLists : Kind → Option (List Text) :=
  (checkAll (fun _ _ => true) (fun _ => failFail.lines) ["45".toList]).lists "45".toList

theorem failFailLists_eq (kind : Kind) :
    failFailLists kind = if kind = .passing then some [testA.text] else none := by
  cases kind <;> decide +kernel

/-- The nightly run on these lists, with both tests expected to pass. -/
def failFailRun : SuiteRun where
  suite := .sollve45
  failing_tests := none
  make_fail := none
  passing_tests := some [testLine testA.text]
  ver_passes := [some [testLine testA.text, testLine testB.text]]
  testdir := fun _ => none
  grep := fun word line => line = .test ⟨word, none⟩

theorem isCopyOf_failFailRun : IsCopyOf failFailRun "45".toList failFailLists := by
  constructor
  · decide
  · rw [failFailLists_eq]
    rfl
  · rw [failFailLists_eq]
    rfl
  · rw [failFailLists_eq]
    rfl
  · intro name
    exact decide_eq_true rfl

/-- The test with two fails is in none of the lists, and it is excused as removed. -/
theorem not_nothingDisappears_failFail :
    (∀ kind, testB.text ∉ (failFailLists kind).getD [])
      ∧ excuses (freshDir failFailRun) failFailRun (String.ofList testB.text) = 1
      ∧ ¬ NothingDisappears (fun _ _ => true) (fun _ => failFail) ["45".toList] := by
  have hlost (kind : Kind) : testB.text ∉ (failFailLists kind).getD [] := by
    rw [failFailLists_eq]
    cases kind <;> decide
  have hexcused : excuses (freshDir failFailRun) failFailRun (String.ofList testB.text) = 1 := by
    decide +kernel
  have hlast : failFail.lastObject testB.text = some (bareObject .FAIL .FAIL testB) := by
    simp [ResultsFile.lastObject, failFail, lastValue, bareObject, testB]
  refine ⟨hlost, hexcused, fun h => ?_⟩
  have hcounted := h.counted "45".toList (List.mem_singleton_self _) failFailRun isCopyOf_failFailRun
    testB.text (bareObject .FAIL .FAIL testB) hlast (by decide) (by decide +kernel)
  rw [hexcused] at hcounted
  exact absurd hcounted.2 (by decide)

end Aomp.Testing.Conformance
