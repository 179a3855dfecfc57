import Mathlib
import Aomp.Testing.RocmTest

/-!
# The unexpected fails of one suite

`copyresults` counts lines and takes off one for each excused word, in two loops that do not know of
each other. The count is compared with the number of distinct tests that should have passed but did
not, less those that are excused. It is right where the files hold one line for each of these tests
and the words of its line are excused as the test is.
-/

namespace Aomp.Testing

theorem sum_map_flatMap {α β : Type*} (f : α → List β) (g : β → ℕ) (l : List α) :
    ((l.flatMap f).map g).sum = (l.map fun a => ((f a).map g).sum).sum := by
  rw [List.map_flatMap, List.flatMap_def, List.sum_flatten, List.map_map]
  rfl

theorem length_filter_key_le {α β : Type*} [DecidableEq β] {key : α → β} {l : List α}
    (h : (l.map key).Nodup) (t : β) : (l.filter (key · = t)).length ≤ 1 := by
  have hcount : (l.filter (key · = t)).length = (l.map key).count t := by
    rw [List.count, List.countP_map, ← List.countP_eq_length_filter]
    apply List.countP_congr
    simp
  rw [hcount]
  exact List.nodup_iff_count_le_one.mp h t

namespace SuiteRun

variable (r : SuiteRun)

def required : List Line :=
  if r.suite.notAllMustPass then r.exp_passes else r.failing_tests.getD [] ++ r.stripped.getD []

def passing : List Line := r.passing_tests.getD []

def recorded : List Line := r.failing_tests.getD [] ++ r.stripped.getD [] ++ r.passing

/-- The tests that should have passed but did not. -/
def missed : Finset Test := (r.required.map Line.about).toFinset \ (r.passing.map Line.about).toFinset

/-- The log says that the test was skipped, its directory or Makefile is missing, or the run recorded
no such test. -/
def Excused (t : Test) : Prop :=
  match r.suite.excuseBy with
  | .directory =>
    r.suite.hasDirectory ∧ (unsupported (r.testdir t.name) ∨ notpresent (r.testdir t.name))
  | .allTests => t ∉ r.recorded.map Line.about
  | .nothing => False

instance : DecidablePred r.Excused := fun t => by
  unfold Excused
  cases r.suite.excuseBy <;> infer_instance

/-- The tests that should have passed, did not and are excused. -/
def excused : Finset Test := r.missed.filter r.Excused

def unexpectedFails : Finset Test := r.missed.filter (¬ r.Excused ·)

theorem card_missed : r.excused.card + r.unexpectedFails.card = r.missed.card :=
  Finset.card_filter_add_card_filter_not _

end SuiteRun

/-- A call of `copyresults` adds the number of tests that should have passed but did not, less those
that are excused, and takes no test off twice. -/
structure CountsTests (epsdb : Bool) (s : Script) (r : SuiteRun) : Prop where
  adds : r.suite.counted epsdb → (copyresults epsdb s r).totalunexpectedfails =
    s.totalunexpectedfails + ((r.missed.card : ℤ) - r.excused.card)
  once : ∀ t, taken ((s.results r.suite).copy r) r t ≤ 1

namespace CountsTests

variable {epsdb : Bool} {s : Script} {r : SuiteRun}

theorem nonneg (h : CountsTests epsdb s r) (hcounted : r.suite.counted epsdb) :
    s.totalunexpectedfails ≤ (copyresults epsdb s r).totalunexpectedfails := by
  have hcard := r.card_missed
  rw [h.adds hcounted]
  omega

end CountsTests

/-- The results directory holds nothing of an earlier call for the suite that this call reads. -/
structure ResultsDir.Unread (d : ResultsDir) (r : SuiteRun) : Prop where
  expected : r.suite.notAllMustPass → d.combined_exp_passes = []
  failing : r.suite.notAllMustPass = false → r.failing_tests = none → d.failing_tests = none
  combined : r.suite.notAllMustPass = false → d.failing_tests_combined.getD [] = []
  make_fail : r.make_fail = none → d.make_fail = none
  passing : r.passing_tests = none → d.passing_tests = none
  all_tests : r.suite.excuseBy = .allTests → d.all_tests.getD [] = []

namespace SuiteRun

variable (r : SuiteRun)

/-- The first word of a missed test's line is its name, which is taken off once if the test is excused
and not at all if it is not, and no other word of the line is taken off. -/
structure ExcusedAsDue (line : Line) : Prop where
  named : line.words.head? = some line.about.name
  directory : r.suite.excuseBy = .directory → r.suite.hasDirectory →
    (notpresent (r.testdir line.about.name) →
      (r.make_fail.isSome ↔ ¬ unsupported (r.testdir line.about.name))) ∧
    ∀ word ∈ line.words.tail, ¬ unsupported (r.testdir word) ∧
      (r.make_fail.isSome → ¬ notpresent (r.testdir word))
  allTests : r.suite.excuseBy = .allTests →
    ((∃ l ∈ r.recorded, r.grep line.about.name l) ↔ line.about ∈ r.recorded.map Line.about) ∧
    ∀ word ∈ line.words.tail, ∃ l ∈ r.recorded, r.grep word l

/-- The files of a suite that left passing tests. Pass lists name each test once, or not more often
than it passed; a must-pass suite logs each failing test once and lets none of them pass. -/
structure Tested (passes : List Line) : Prop where
  plain : r.suite.notAllMustPass → ∀ line ∈ r.exp_passes ++ passes, line = .test line.about
  listed : r.suite.notAllMustPass → ∀ line, r.exp_passes.count line ≤ max 1 (passes.count line)
  logged : r.suite.notAllMustPass = false → (r.required.map Line.about).Nodup
  failed : r.suite.notAllMustPass = false → ∀ line ∈ r.required, line.about ∉ passes.map Line.about
  due : ∀ line ∈ r.required, line.about ∈ r.missed → r.ExcusedAsDue line

/-- The files of a suite that left no passing tests, when `numtests` is what an earlier suite left. -/
structure Untested (numtests : ℕ) : Prop where
  distinct : (r.required.map Line.about).Nodup
  unexcused : r.excused = ∅
  unset : r.suite.notAllMustPass = false → numtests = 0

end SuiteRun

/-- The files that the call reads account for each missed test once. -/
structure FilesCount (s : Script) (r : SuiteRun) : Prop where
  unread : (s.results r.suite).Unread r
  tested : ∀ passes, r.passing_tests = some passes → r.Tested passes
  untested : r.passing_tests = none → r.Untested s.numtests

namespace ResultsDir.Unread

variable {d : ResultsDir} {r : SuiteRun}

theorem expected_eq (h : d.Unread r) (hall : r.suite.notAllMustPass) :
    (d.copy r).combined_exp_passes = r.required := by
  simp [ResultsDir.copy, SuiteRun.required, hall, h.expected hall]

theorem combined_eq (h : d.Unread r) (hmust : r.suite.notAllMustPass = false) :
    (d.copy r).failing_tests_combined.getD [] = r.required := by
  have hcombined := h.combined hmust
  cases hd : d.failing_tests_combined <;> cases hf : r.failing_tests <;> cases hm : r.stripped <;>
    simp_all [ResultsDir.copy, SuiteRun.required, appendFile]

theorem failureLines_eq (h : d.Unread r) (hmust : r.suite.notAllMustPass = false) :
    failureLines (d.copy r) = r.required.length := by
  have hfailing := h.failing hmust
  have hmake := h.make_fail
  cases hf : r.failing_tests <;> cases hm : r.make_fail <;>
    simp_all [failureLines, ResultsDir.copy, SuiteRun.required, SuiteRun.stripped]

theorem recorded_eq (h : d.Unread r) (hall : r.suite.excuseBy = .allTests) :
    (d.copy r).all_tests.getD [] = r.recorded := by
  have hd := h.all_tests hall
  cases h₀ : d.all_tests <;> cases hf : r.failing_tests <;> cases hm : r.stripped <;>
    cases hp : r.passing_tests <;>
    simp_all [ResultsDir.copy, SuiteRun.recorded, SuiteRun.passing, appendFile]

theorem make_fail_isSome (h : d.Unread r) :
    (d.copy r).make_fail.isSome = r.make_fail.isSome := by
  have hmake := h.make_fail
  cases hm : r.make_fail <;> simp_all [ResultsDir.copy]

end ResultsDir.Unread

theorem passing_copy {d : ResultsDir} {r : SuiteRun} {passes : List Line}
    (hp : r.passing_tests = some passes) : (d.copy r).passing_tests = some passes := by
  simp [ResultsDir.copy, hp]

namespace SuiteRun.Tested

variable {d : ResultsDir} {r : SuiteRun} {passes : List Line}

/-- The lines that are counted and checked. -/
def lines (r : SuiteRun) (passes : List Line) : List Line :=
  if r.suite.notAllMustPass then r.required.diff passes else r.required

theorem lines_eq (hread : d.Unread r) (hp : r.passing_tests = some passes) (numtests : ℕ) :
    checkedLines (d.copy r) r = lines r passes ∧
      countedLines (d.copy r) r numtests = (lines r passes).length := by
  have hfail : failLines (d.copy r) r passes = lines r passes := by
    unfold failLines lines onlyExpected
    cases hmust : r.suite.notAllMustPass with
    | true => simp [hread.expected_eq hmust]
    | false => simp [hread.combined_eq hmust]
  have hraw : unexcused (d.copy r) r passes = (lines r passes).length := by
    unfold unexcused lines passlines onlyExpected
    cases hmust : r.suite.notAllMustPass with
    | true =>
      rw [hread.expected_eq hmust]
      cases r.required <;> simp
    | false => simp [hread.failureLines_eq hmust]
  rw [checkedLines, countedLines, passing_copy hp]
  simp only [hraw, hfail]
  refine ⟨?_, trivial⟩
  split_ifs with hzero
  · exact (List.length_eq_zero_iff.mp hzero).symm
  · rfl

theorem mem_required {line : Line} (hline : line ∈ lines r passes) : line ∈ r.required := by
  unfold lines at hline
  split_ifs at hline
  · exact List.diff_subset _ _ hline
  · exact hline

theorem required_eq (hall : r.suite.notAllMustPass) : r.required = r.exp_passes := by
  simp [SuiteRun.required, hall]

/-- One expected line is left over for each test that did not pass. -/
theorem count_diff_le (h : r.Tested passes) (hall : r.suite.notAllMustPass) (line : Line) :
    (r.required.diff passes).count line ≤ 1 ∧
      (line ∈ passes → (r.required.diff passes).count line = 0) := by
  have hlisted := h.listed hall line
  rw [List.count_diff, required_eq hall]
  constructor
  · omega
  · intro hline
    have := List.count_pos_iff.mpr hline
    omega

theorem plain_of_mem (h : r.Tested passes) (hall : r.suite.notAllMustPass) {line : Line}
    (hline : line ∈ r.required ∨ line ∈ passes) : line = .test line.about := by
  rw [required_eq hall] at hline
  exact h.plain hall line (List.mem_append.mpr hline)

theorem nodup_lines (h : r.Tested passes) : ((lines r passes).map Line.about).Nodup := by
  unfold lines
  split_ifs with hall
  · apply List.Nodup.map_on
    · intro line hline line' hline' heq
      rw [h.plain_of_mem hall (.inl (List.diff_subset _ _ hline)),
        h.plain_of_mem hall (.inl (List.diff_subset _ _ hline')), heq]
    · exact List.nodup_iff_count_le_one.mpr fun line => (h.count_diff_le hall line).1
  · exact h.logged (by simpa using hall)

/-- All missed tests have a line. -/
theorem missed_eq (h : r.Tested passes) (hp : r.passing_tests = some passes) :
    r.missed = ((lines r passes).map Line.about).toFinset := by
  have hpassing : r.passing = passes := by simp [SuiteRun.passing, hp]
  ext t
  rw [SuiteRun.missed, Finset.mem_sdiff, List.mem_toFinset, List.mem_toFinset, List.mem_toFinset,
    hpassing]
  constructor
  · rintro ⟨hrequired, hnot⟩
    obtain ⟨line, hline, rfl⟩ := List.mem_map.mp hrequired
    apply List.mem_map_of_mem
    unfold lines
    split_ifs with hall
    · exact List.mem_diff_of_mem hline fun hpass => hnot (List.mem_map_of_mem hpass)
    · exact hline
  · intro hmem
    obtain ⟨line, hline, rfl⟩ := List.mem_map.mp hmem
    refine ⟨List.mem_map_of_mem (mem_required hline), fun hpass => ?_⟩
    unfold lines at hline
    split_ifs at hline with hall
    · obtain ⟨line', hline', heq⟩ := List.mem_map.mp hpass
      have hsame : line = line' := by
        rw [h.plain_of_mem hall (.inl (List.diff_subset _ _ hline)),
          h.plain_of_mem hall (.inr hline'), heq]
      have hzero := (h.count_diff_le hall line).2 (hsame ▸ hline')
      exact absurd hline (List.count_eq_zero.mp hzero)
    · exact h.failed (by simpa using hall) line hline hpass

theorem excuses_directory (hread : d.Unread r) (hp : r.passing_tests = some passes)
    (hdir : r.suite.excuseBy = .directory) (word : Word) : excuses (d.copy r) r word =
      if r.suite.hasDirectory then
        (if unsupported (r.testdir word) then 1 else 0) +
          if r.make_fail.isSome ∧ notpresent (r.testdir word) then 1 else 0
      else 0 := by
  have hall : (d.copy r).all_tests.isSome := by simp [ResultsDir.copy, hp, appendFile]
  simp only [excuses, hdir, hall, hread.make_fail_isSome]
  cases r.suite.hasDirectory <;> simp

theorem excuses_allTests (hread : d.Unread r) (hp : r.passing_tests = some passes)
    (hall : r.suite.excuseBy = .allTests) (word : Word) : excuses (d.copy r) r word =
      if ∃ l ∈ r.recorded, r.grep word l then 0 else 1 := by
  obtain ⟨tests, htests⟩ : ∃ tests, (d.copy r).all_tests = some tests :=
    ⟨_, by rw [ResultsDir.copy, hp, appendFile]⟩
  have hrec := hread.recorded_eq hall
  rw [htests, Option.getD_some] at hrec
  simp [excuses, hall, htests, hrec]

theorem excuses_name (hread : d.Unread r) (hp : r.passing_tests = some passes) {line : Line}
    (h : r.ExcusedAsDue line) :
    excuses (d.copy r) r line.about.name = if r.Excused line.about then 1 else 0 := by
  cases hby : r.suite.excuseBy with
  | nothing => simp [excuses, SuiteRun.Excused, hby]
  | allTests =>
    have hgrep := (h.allTests hby).1
    rw [excuses_allTests hread hp hby]
    simp only [SuiteRun.Excused, hby, hgrep]
    split_ifs <;> rfl
  | directory =>
    rw [excuses_directory hread hp hby]
    simp only [SuiteRun.Excused, hby]
    by_cases hdir : r.suite.hasDirectory
    · have hname := (h.directory hby hdir).1
      by_cases hgone : notpresent (r.testdir line.about.name)
      · have hmake := hname hgone
        by_cases hskip : unsupported (r.testdir line.about.name) <;> simp_all
      · by_cases hskip : unsupported (r.testdir line.about.name) <;> simp_all
    · simp [hdir]

theorem excuses_rest (hread : d.Unread r) (hp : r.passing_tests = some passes) {line : Line}
    (h : r.ExcusedAsDue line) {word : Word} (hword : word ∈ line.words.tail) :
    excuses (d.copy r) r word = 0 := by
  cases hby : r.suite.excuseBy with
  | nothing => simp [excuses, hby]
  | allTests => rw [excuses_allTests hread hp hby, if_pos ((h.allTests hby).2 word hword)]
  | directory =>
    rw [excuses_directory hread hp hby]
    by_cases hdir : r.suite.hasDirectory
    · obtain ⟨hskip, hgone⟩ := (h.directory hby hdir).2 word hword
      rw [if_pos hdir, if_neg hskip, if_neg fun hboth => hgone hboth.1 hboth.2]
    · rw [if_neg hdir]

/-- The words of a line take its test off once if it is excused, else not at all. -/
theorem excuses_line (h : r.Tested passes) (hread : d.Unread r) (hp : r.passing_tests = some passes)
    {line : Line} (hline : line ∈ lines r passes) :
    (line.words.map (excuses (d.copy r) r)).sum = if r.Excused line.about then 1 else 0 := by
  have hmissed : line.about ∈ r.missed := by
    rw [h.missed_eq hp, List.mem_toFinset]
    exact List.mem_map_of_mem hline
  have hdue := h.due line (mem_required hline) hmissed
  obtain ⟨rest, hwords⟩ := List.head?_eq_some_iff.mp hdue.named
  have hrest : (rest.map (excuses (d.copy r) r)).sum = 0 := by
    apply List.sum_eq_zero_iff.mpr
    intro n hn
    obtain ⟨word, hword, rfl⟩ := List.mem_map.mp hn
    apply excuses_rest hread hp hdue
    rw [hwords]
    exact hword
  rw [hwords, List.map_cons, List.sum_cons, hrest, excuses_name hread hp hdue, Nat.add_zero]

theorem count_eq (h : r.Tested passes) (hread : d.Unread r) (hp : r.passing_tests = some passes)
    (numtests : ℕ) : count (d.copy r) r numtests = r.unexpectedFails.card := by
  obtain ⟨hchecked, hcounted⟩ := lines_eq hread hp numtests
  have hmissed : r.missed.card = (lines r passes).length := by
    rw [h.missed_eq hp, List.toFinset_card_of_nodup h.nodup_lines, List.length_map]
  have hexcused : r.excused.card = ((lines r passes).map fun line =>
      (line.words.map (excuses (d.copy r) r)).sum).sum := by
    rw [List.map_congr_left fun line hline => h.excuses_line hread hp hline, SuiteRun.excused,
      Finset.card_filter, h.missed_eq hp, List.sum_toFinset _ h.nodup_lines, List.map_map]
    rfl
  have hcard := r.card_missed
  rw [count, hchecked, hcounted, sum_map_flatMap, ← hexcused, ← hmissed]
  omega

theorem taken_le_one (h : r.Tested passes) (hread : d.Unread r) (hp : r.passing_tests = some passes)
    (t : Test) : taken (d.copy r) r t ≤ 1 := by
  obtain ⟨hchecked, -⟩ := lines_eq hread hp 0
  rw [taken, checkedWords, hchecked, sum_map_flatMap]
  have hle : ∀ n ∈ (((lines r passes).filter (·.about = t)).map fun line =>
      (line.words.map (excuses (d.copy r) r)).sum), n ≤ 1 := by
    intro n hn
    obtain ⟨line, hline, rfl⟩ := List.mem_map.mp hn
    rw [h.excuses_line hread hp (List.mem_of_mem_filter hline)]
    split_ifs <;> omega
  have hsum := List.sum_le_card_nsmul _ 1 hle
  have hlength := length_filter_key_le h.nodup_lines t
  rw [List.length_map, Nat.nsmul_eq_mul, Nat.mul_one] at hsum
  exact hsum.trans hlength

end SuiteRun.Tested

namespace SuiteRun

variable {d : ResultsDir} {r : SuiteRun}

/-- Without passing tests the lines of all required tests are counted and none is checked. -/
theorem lines_untested (hread : d.Unread r) (hp : r.passing_tests = none) (numtests : ℕ) :
    checkedLines (d.copy r) r = [] ∧ countedLines (d.copy r) r numtests =
      (if r.suite.notAllMustPass then 0 else numtests) + r.required.length := by
  have hpassing : (d.copy r).passing_tests = none := by
    simp [ResultsDir.copy, hp, hread.passing hp]
  rw [checkedLines, countedLines, hpassing]
  refine ⟨rfl, ?_⟩
  unfold passlines
  cases hmust : r.suite.notAllMustPass with
  | true =>
    rw [hread.expected_eq hmust]
    cases r.required <;> simp
  | false => simp [hread.failureLines_eq hmust]

theorem taken_untested (hread : d.Unread r) (hp : r.passing_tests = none) (t : Test) :
    taken (d.copy r) r t = 0 := by
  simp [taken, checkedWords, (lines_untested hread hp 0).1]

theorem missed_untested (hp : r.passing_tests = none) :
    r.missed = (r.required.map Line.about).toFinset := by
  simp [missed, passing, hp]

/-- Without passing tests the count is right exactly for the files of `Untested`. -/
theorem count_untested_iff (hread : d.Unread r) (hp : r.passing_tests = none) (numtests : ℕ) :
    count (d.copy r) r numtests = r.unexpectedFails.card ↔ r.Untested numtests := by
  obtain ⟨hchecked, hcounted⟩ := lines_untested hread hp numtests
  have hcard := r.card_missed
  have hle := List.toFinset_card_le (r.required.map Line.about)
  rw [← missed_untested hp, List.length_map] at hle
  have hnodup : r.missed.card = r.required.length ↔ (r.required.map Line.about).Nodup := by
    rw [missed_untested hp, ← List.length_map Line.about]
    exact Multiset.toFinset_card_eq_card_iff_nodup
  have hcount : count (d.copy r) r numtests =
      ((if r.suite.notAllMustPass then 0 else numtests) + r.required.length : ℕ) := by
    simp [count, hchecked, hcounted]
  rw [hcount]
  constructor
  · intro heq
    refine ⟨hnodup.mp (by omega), Finset.card_eq_zero.mp (by omega), fun hmust => ?_⟩
    simp only [hmust, Bool.false_eq_true, if_false] at heq
    omega
  · intro h
    have hlines := hnodup.mpr h.distinct
    rw [Finset.card_eq_zero.mpr h.unexcused] at hcard
    cases hmust : r.suite.notAllMustPass with
    | true => simp only [if_true]; omega
    | false => simp only [h.unset hmust, Bool.false_eq_true, if_false]; omega

end SuiteRun

section

variable {epsdb : Bool} {s : Script} {r : SuiteRun}

theorem FilesCount.count_eq (h : FilesCount s r) :
    count ((s.results r.suite).copy r) r s.numtests = r.unexpectedFails.card := by
  cases hp : r.passing_tests with
  | some passes => exact (h.tested passes hp).count_eq h.unread hp s.numtests
  | none => exact (r.count_untested_iff h.unread hp s.numtests).mpr (h.untested hp)

theorem FilesCount.taken_le_one (h : FilesCount s r) (t : Test) :
    taken ((s.results r.suite).copy r) r t ≤ 1 := by
  cases hp : r.passing_tests with
  | some passes => exact (h.tested passes hp).taken_le_one h.unread hp t
  | none => simp [SuiteRun.taken_untested h.unread hp]

theorem adds_iff (hcounted : r.suite.counted epsdb) :
    (copyresults epsdb s r).totalunexpectedfails =
        s.totalunexpectedfails + ((r.missed.card : ℤ) - r.excused.card) ↔
      count ((s.results r.suite).copy r) r s.numtests = r.unexpectedFails.card := by
  have hcard := r.card_missed
  rw [copyresults_total, if_pos hcounted]
  omega

theorem FilesCount.countsTests (h : FilesCount s r) (epsdb : Bool) : CountsTests epsdb s r :=
  ⟨fun hcounted => (adds_iff hcounted).mpr h.count_eq, h.taken_le_one⟩

theorem copyresults_results (epsdb : Bool) (s : Script) (r : SuiteRun) :
    (copyresults epsdb s r).results =
      Function.update s.results r.suite ((s.results r.suite).copy r) := by
  unfold copyresults
  dsimp only
  split <;> split_ifs <;> rfl

theorem run_results (epsdb : Bool) {suite : Suite} {steps : List Step}
    (h : ∀ r, .copyresults r ∈ steps → r.suite ≠ suite) (s : Script) :
    (run epsdb s steps).results suite = s.results suite := by
  induction steps generalizing s with
  | nil => rfl
  | cons st steps ih =>
    have hrest := ih (fun r hr => h r (List.mem_cons_of_mem _ hr)) (step epsdb s st)
    refine hrest.trans ?_
    cases st with
    | checkrc rc =>
      simp only [step]
      split_ifs <;> rfl
    | copyresults r =>
      have hne := h r List.mem_cons_self
      rw [step, copyresults_results, Function.update_of_ne hne.symm]

theorem unread_of_new (epsdb : Bool) {steps : List Step}
    (h : ∀ r', .copyresults r' ∈ steps → r'.suite ≠ r.suite) :
    ((run epsdb .init steps).results r.suite).Unread r := by
  rw [run_results epsdb h]
  constructor <;> intros <;> rfl

end

/-- In a suite that checks directories, a line "name make check failed: rc" is taken off three times
and more: there are no directories `make`, `check` and `failed:`. -/
theorem not_countsTests_of_makeCheckFailed {epsdb : Bool} {s : Script} {r : SuiteRun}
    {name : Word} {rc : ℕ}
    (hdir : r.suite.excuseBy = .directory ∧ r.suite.hasDirectory) (hmake : r.make_fail.isSome)
    (hline : .makeCheckFailed name rc ∈ checkedLines ((s.results r.suite).copy r) r)
    (hgone : r.testdir "make" = none ∧ r.testdir "check" = none) : ¬ CountsTests epsdb s r := by
  intro h
  have honce := h.once ⟨name, none⟩
  set d := (s.results r.suite).copy r with hd
  have hfile : d.make_fail.isSome := by simp [hd, ResultsDir.copy, hmake]
  have hexcuse {word : Word} (hword : r.testdir word = none) : excuses d r word = 1 := by
    simp [excuses, hdir, hfile, hword, unsupported, notpresent]
  have hmem : .makeCheckFailed name rc ∈ (checkedLines d r).filter (·.about = ⟨name, none⟩) :=
    List.mem_filter.mpr ⟨hline, by simp [Line.about]⟩
  rw [taken, checkedWords, sum_map_flatMap] at honce
  have hle := List.single_le_sum (fun n _ => Nat.zero_le n) _
    (List.mem_map_of_mem (f := fun line => (line.words.map (excuses d r)).sum) hmem)
  have hwords : (Line.makeCheckFailed name rc).words =
      [name, "make", "check", "failed:", toString rc] := rfl
  rw [hwords, List.map_cons, List.map_cons, List.map_cons, List.sum_cons, List.sum_cons, List.sum_cons,
    hexcuse hgone.1, hexcuse hgone.2] at hle
  omega

theorem mem_checkedLines_of_make_fail {d : ResultsDir} {r : SuiteRun} {name : Word} {rc : ℕ}
    (hmust : r.suite.notAllMustPass = false) (hp : r.passing_tests.isSome)
    (hline : .makeCheckFailed name rc ∈ r.make_fail.getD []) :
    .makeCheckFailed name rc ∈ checkedLines (d.copy r) r := by
  obtain ⟨passes, hpasses⟩ := Option.isSome_iff_exists.mp hp
  obtain ⟨lines, hmake⟩ : ∃ lines, r.make_fail = some lines := by
    cases hm : r.make_fail with
    | none => simp [hm] at hline
    | some lines => exact ⟨lines, rfl⟩
  rw [hmake, Option.getD_some] at hline
  have hfile : failLines (d.copy r) r passes =
      (appendFile d.failing_tests_combined r.failing_tests).getD [] ++ lines.map Line.strip := by
    simp [failLines, hmust, ResultsDir.copy, SuiteRun.stripped, hmake, appendFile]
  have hmem : .makeCheckFailed name rc ∈ failLines (d.copy r) r passes := by
    rw [hfile]
    exact List.mem_append_right _ (List.mem_map.mpr ⟨_, hline, rfl⟩)
  have hraw : unexcused (d.copy r) r passes ≠ 0 := by
    have hpos := List.length_pos_of_mem hline
    have hlog : (d.copy r).make_fail = some lines := by simp [ResultsDir.copy, hmake]
    have hcount : unexcused (d.copy r) r passes = failureLines (d.copy r) := by
      simp [unexcused, passlines, hmust]
    rw [hcount, failureLines, hlog, Option.getD_some]
    omega
  rw [checkedLines, passing_copy hpasses]
  simp only [hraw, if_false]
  exact hmem

/-- After every sequence of suites, a suite whose files account for each missed test once is
counted right, and the total does not fall. The converse holds for suites without passing tests,
and a must-pass suite with a line "name make check failed: rc" is counted wrong. -/
theorem countsTests_of_files (epsdb : Bool) (steps : List Step) (r : SuiteRun) :
    (FilesCount (run epsdb .init steps) r → CountsTests epsdb (run epsdb .init steps) r ∧
      (r.suite.counted epsdb → (run epsdb .init steps).totalunexpectedfails ≤
        (copyresults epsdb (run epsdb .init steps) r).totalunexpectedfails)) ∧
    (((run epsdb .init steps).results r.suite).Unread r → r.passing_tests = none →
      r.suite.counted epsdb → CountsTests epsdb (run epsdb .init steps) r →
        FilesCount (run epsdb .init steps) r) ∧
    (∀ name rc, r.suite.notAllMustPass = false → r.passing_tests.isSome →
      .makeCheckFailed name rc ∈ r.make_fail.getD [] →
      r.testdir "make" = none → r.testdir "check" = none →
        ¬ CountsTests epsdb (run epsdb .init steps) r) := by
  refine ⟨fun h => ?_, fun hread hp hcounted h => ?_, fun name rc hmust hp hline hmake hcheck => ?_⟩
  · have hcounts := h.countsTests epsdb
    exact ⟨hcounts, hcounts.nonneg⟩
  · refine ⟨hread, fun passes hsome => by simp [hp] at hsome, fun _ => ?_⟩
    exact (r.count_untested_iff hread hp _).mp ((adds_iff hcounted).mp (h.adds hcounted))
  · have hdir : r.suite.excuseBy = .directory ∧ r.suite.hasDirectory := by
      revert hmust
      cases r.suite <;> decide
    have hsome : r.make_fail.isSome := by
      cases hm : r.make_fail with
      | none => simp [hm] at hline
      | some lines => rfl
    exact not_countsTests_of_makeCheckFailed hdir hsome (mem_checkedLines_of_make_fail hmust hp hline)
      ⟨hmake, hcheck⟩

/-- `make check` of the smoke test `a` returns 2, and the test `b` passes. -/
def failedCheck : SuiteRun where
  suite := .smoke
  failing_tests := none
  make_fail := some [.makeCheckFailed "a" 2]
  passing_tests := some [.test ⟨"b", none⟩]
  ver_passes := []
  testdir := fun word => if word = "a" ∨ word = "b" then some ⟨some false, some false, true⟩ else none
  grep := fun word line => line.words = [word]

/-- The test `a` of smoke_limbo fails, `b` passes and `c` is skipped. -/
def oneFail : SuiteRun where
  suite := .smoke_limbo
  failing_tests := some [.test ⟨"a", none⟩, .test ⟨"c", none⟩]
  make_fail := none
  passing_tests := some [.test ⟨"b", none⟩]
  ver_passes := []
  testdir := fun word => some ⟨some (word = "c"), some false, true⟩
  grep := fun word line => line.words = [word]

theorem oneFail_filesCount (s : Script) (hread : (s.results .smoke_limbo).Unread oneFail) :
    FilesCount s oneFail := by
  refine ⟨hread, fun passes hp => ?_, fun hp => by simp [oneFail] at hp⟩
  obtain rfl := Option.some.inj hp
  refine ⟨by decide, fun hall => absurd hall (by decide), by decide, by decide, fun line hline _ => ?_⟩
  have hwords : line.words = [line.about.name] := by
    revert line
    decide
  refine ⟨by rw [hwords]; rfl, fun _ _ => ⟨fun hgone => ?_, by simp [hwords]⟩, fun hall => ?_⟩
  · simp [oneFail, notpresent] at hgone
  · simp [oneFail, Suite.excuseBy] at hall

theorem oneFail_unread : ((run false .init [.copyresults failedCheck]).results .smoke_limbo).Unread
    oneFail := by
  refine unread_of_new (r := oneFail) false fun r hr => ?_
  obtain rfl := Step.copyresults.inj (List.mem_singleton.mp hr)
  decide

theorem countsTests_of_files_oneFail :
    CountsTests false (run false .init [.copyresults failedCheck]) oneFail ∧
      oneFail.missed.card = 2 ∧ oneFail.excused.card = 1 :=
  ⟨((countsTests_of_files false [.copyresults failedCheck] oneFail).1
    (oneFail_filesCount _ oneFail_unread)).1, by decide, by decide⟩

/-- One test fails and is not excused, and the suite takes 3 off the total. -/
theorem not_countsTests_failedCheck :
    ¬ ∀ (epsdb : Bool) (steps : List Step) (r : SuiteRun), CountsTests epsdb (run epsdb .init steps) r := by
  intro hall
  have hadds := (hall false [] failedCheck).adds rfl
  exact absurd hadds (by decide)

end Aomp.Testing
