import Aomp.Testing.LLNL

/-!
# What the log says about a test

A name is recorded as the last `test_` of a line; a verdict follows the last three dots. Read
back line by line, the log records the files whose compilers complain and the tests that are
followed by a verdict, which need not be the tests that failed to build and the tests that ran.
-/

namespace Aomp.Testing.LLNL

open Foundations

def Graphic (s : Text) : Prop := ∀ c ∈ s, isGraph c = true

instance (s : Text) : Decidable (Graphic s) := decidable_of_iff (s.all isGraph = true) List.all_eq_true

theorem Graphic.append {s u : Text} (hs : Graphic s) (hu : Graphic u) : Graphic (s ++ u) := by
  intro c hc
  obtain hc | hc := List.mem_append.mp hc
  · exact hs c hc
  · exact hu c hc

theorem Graphic.not_mem {s : Text} (hs : Graphic s) {c : Char} (hc : isGraph c = false) : c ∉ s := by
  intro hmem
  simp [hs c hmem] at hc

theorem isGraph_iff {c : Char} : isGraph c = true ↔ 33 ≤ c.toNat ∧ c.toNat ≤ 126 := by
  rw [isGraph, Bool.and_eq_true, decide_eq_true_eq, decide_eq_true_eq]
  exact Iff.rfl

theorem isGraph_of_isDigit {c : Char} (h : c.isDigit = true) : isGraph c = true := by
  rw [Char.isDigit, Bool.and_eq_true, decide_eq_true_eq, decide_eq_true_eq] at h
  have hlow : 48 ≤ c.toNat := h.1
  have hhigh : c.toNat ≤ 57 := h.2
  rw [isGraph_iff]
  omega

theorem isSpace_of_isGraph {c : Char} (h : isGraph c = true) : isSpace c = false := by
  by_contra hspace
  simp only [isSpace, Bool.not_eq_false, decide_eq_true_eq, List.mem_cons, List.not_mem_nil,
    or_false] at hspace
  rcases hspace with rfl | rfl | rfl | rfl | rfl | rfl
  all_goals exact absurd h (by decide)

theorem not_mem_str {c : Char} (hc : c.isDigit = false) (n : ℕ) : c ∉ str n := by
  intro hmem
  simp [Nat.isDigit_of_mem_toDigits (by decide) (by decide) hmem] at hc

theorem isTest_eq_true {s : Text} : "test_".toList.isPrefixOf s = true ↔ "test_".toList <+: s :=
  List.isPrefixOf_iff_prefix

theorem testname_append {b : Text} (h : "test_".toList <:+: b) (a : Text) :
    testname_regex (a ++ b) = testname_regex b := by
  obtain ⟨x, y, rfl⟩ := h
  have hfound : ∃ r, lastSuffix ("test_".toList.isPrefixOf ·) (x ++ ("test_".toList ++ y)) = some r :=
    exists_lastSuffix_append (by simp) (isTest_eq_true.mpr (List.prefix_append _ _)) x
  obtain ⟨r, hr⟩ := hfound
  rw [List.append_assoc, testname_regex, testname_regex, lastSuffix_append_of_some hr, hr]

theorem noTest {s : Text} (h : ¬ "test_".toList <:+: s) :
    lastSuffix ("test_".toList.isPrefixOf ·) s = none := by
  apply lastSuffix_eq_none
  intro r hr
  rw [Bool.eq_false_iff]
  intro hp
  exact h ((isTest_eq_true.mp hp).isInfix.trans hr.isInfix)

theorem not_mem_test {c : Char} (hc : isSpace c = true) : c ∉ "test_".toList := by
  intro hmem
  have hall : "test_".toList.all (!isSpace ·) = true := by decide
  have hnot := List.all_eq_true.mp hall c hmem
  simp [hc] at hnot

/-- A name ends at the first space. -/
theorem testname_append_space {c : Char} (hc : isSpace c = true) {b : Text}
    (h : lastSuffix ("test_".toList.isPrefixOf ·) (c :: b) = none) (a : Text) :
    testname_regex (a ++ c :: b) = testname_regex a := by
  have hcongr : lastSuffix (fun s => "test_".toList.isPrefixOf (s ++ c :: b)) a =
      lastSuffix ("test_".toList.isPrefixOf ·) a := by
    apply lastSuffix_congr
    intro r _
    rw [Bool.eq_iff_iff, isTest_eq_true, isTest_eq_true]
    exact prefix_append_cons (not_mem_test hc) r b
  rw [testname_regex, testname_regex, lastSuffix_append_of_none h, hcongr]
  cases lastSuffix ("test_".toList.isPrefixOf ·) a with
  | none => rfl
  | some r => exact takeWhile_append_cons (by simp [hc]) r b

theorem testname_of_some {s r : Text} (h : lastSuffix ("test_".toList.isPrefixOf ·) s = some r) :
    testname_regex s = r.takeWhile (!isSpace ·) := by
  rw [testname_regex, h, Option.getD_some]

/-- A recorded name contains `test_` at its start only. -/
theorem testname_testname (s : Text) : testname_regex (testname_regex s) = testname_regex s := by
  cases hs : lastSuffix ("test_".toList.isPrefixOf ·) s with
  | none =>
    have hname : testname_regex s = [] := by rw [testname_regex, hs]; rfl
    rw [hname]
    rfl
  | some r =>
    rw [testname_of_some hs]
    have hr := lastSuffix_self hs
    have hsplit := List.takeWhile_append_dropWhile (p := (!isSpace ·)) (l := r)
    cases hrest : r.dropWhile (!isSpace ·) with
    | nil =>
      rw [hrest, List.append_nil] at hsplit
      rw [hsplit, testname_of_some hr, hsplit]
    | cons c rest =>
      have hc : isSpace c = true := by
        have hne : r.dropWhile (!isSpace ·) ≠ [] := by simp [hrest]
        simpa [hrest] using List.head_dropWhile_not (!isSpace ·) hne
      rw [hrest] at hsplit
      set n := r.takeWhile (!isSpace ·) with hn
      have hnone : lastSuffix ("test_".toList.isPrefixOf ·) (c :: rest) = none := by
        by_contra hsome
        obtain ⟨q, hq⟩ := Option.ne_none_iff_exists'.mp hsome
        have hqr : q = r := by
          have happend := lastSuffix_append_of_some hq n
          rw [hsplit, hr] at happend
          exact (Option.some.inj happend).symm
        have hlength := (lastSuffix_eq_some hq).1.length_le
        have hnil : n = [] := by
          rw [hqr, ← hsplit, List.length_append] at hlength
          exact List.length_eq_zero_iff.mp (by omega)
        have htest := isTest_eq_true.mp (lastSuffix_eq_some hr).2
        rw [← hsplit, hnil, List.nil_append] at htest
        obtain ⟨rfl, -⟩ := List.cons_prefix_cons.mp htest
        exact absurd hc (by decide)
      have hself : testname_regex (n ++ c :: rest) = testname_regex n := by
        exact testname_append_space hc hnone n
      rw [hsplit, testname_of_some hr] at hself
      exact hself.symm

theorem compile_regex_left {x : Text} (hx : ¬ "failed".toList <:+: x) (u : Text) :
    compile_regex (u ++ ' ' :: x) = compile_regex u :=
  followedBy_left (by decide) (by decide) hx u

theorem compile_regex_right {u : Text} (hu : ¬ "Compilation".toList <:+: u) (x : Text) :
    compile_regex (u ++ ' ' :: x) = compile_regex x :=
  followedBy_right (by decide) (by decide) hu x

theorem compile_regex_eq_false {line : Text} (h : ¬ "Compilation".toList <:+: line) :
    compile_regex line = false := by
  rw [Bool.eq_false_iff]
  intro hline
  obtain ⟨a, b, rfl, ha, -⟩ := (followedBy_iff (by decide)).mp hline
  exact h (ha.trans (List.prefix_append _ _).isInfix)

theorem space_of_isDots {s : Text} (h : isDots s = true) : ∃ c ∈ s, isSpace c = true := by
  rw [isDots, Bool.and_eq_true, Option.any_eq_true] at h
  obtain ⟨-, c, hc, hspace⟩ := h
  exact ⟨c, List.mem_of_mem_drop (List.mem_of_mem_head? hc), hspace⟩

theorem dot_of_isDots {s : Text} (h : isDots s = true) : '.' ∈ s := by
  rw [isDots, Bool.and_eq_true, List.isPrefixOf_iff_prefix] at h
  exact h.1.subset (by decide)

theorem lastSuffix_isDots {w : Text} (hw : '.' ∉ w) :
    lastSuffix isDots ("... ".toList ++ w) = some ("... ".toList ++ w) := by
  have hnone : lastSuffix isDots (' ' :: w) = none := by
    apply lastSuffix_eq_none
    intro r hr
    rw [Bool.eq_false_iff]
    intro hdots
    have hmem := hr.subset (dot_of_isDots hdots)
    simp [hw] at hmem
  have hdots : isDots ("... ".toList ++ w) = true := rfl
  have htwo : isDots ('.' :: '.' :: ' ' :: w) = false := rfl
  have hone : isDots ('.' :: ' ' :: w) = false := rfl
  change lastSuffix isDots ('.' :: '.' :: '.' :: ' ' :: w) = some ('.' :: '.' :: '.' :: ' ' :: w)
  change isDots ('.' :: '.' :: '.' :: ' ' :: w) = true at hdots
  rw [lastSuffix, lastSuffix, lastSuffix, hnone, hdots, htwo, hone]
  rfl

/-- The result follows the last dots, whatever stands between them and the first word. -/
theorem runtime_regex_of_dots {b d : Text} (h : lastSuffix isDots b = some d) (c : Char) :
    runtime_regex ("Running".toList ++ c :: b) = some (resultOf (d.drop 3)) := by
  have hfirst : firstSuffix ("Running".toList.isPrefixOf ·) ("Running".toList ++ c :: b) =
      some ("Running".toList ++ c :: b) := by
    have hp := List.isPrefixOf_iff_prefix.mpr (List.prefix_append "Running".toList (c :: b))
    change firstSuffix _ ('R' :: ("unning".toList ++ c :: b)) = some ('R' :: ("unning".toList ++ c :: b))
    exact if_pos hp
  have hdrop : ("Running".toList ++ c :: b).drop ("Running".length + 1) = b := rfl
  rw [runtime_regex, hfirst, Option.bind_some, hdrop, h]
  rfl

theorem runtime_regex_eq_none {line : Text} (h : ∀ c ∈ line, isSpace c = false) :
    runtime_regex line = none := by
  rw [runtime_regex, Option.bind_eq_none_iff]
  intro m hm
  rw [Option.map_eq_none_iff]
  apply lastSuffix_eq_none
  intro r hr
  rw [Bool.eq_false_iff]
  intro hdots
  obtain ⟨c, hc, hspace⟩ := space_of_isDots hdots
  have hmem := (firstSuffix_eq_some hm).1.subset (List.mem_of_mem_drop (hr.subset hc))
  simp [h c hmem] at hspace

theorem runtime_regex_eq_none' {line : Text} (h : 'R' ∉ line) : runtime_regex line = none := by
  rw [runtime_regex]
  cases hm : firstSuffix ("Running".toList.isPrefixOf ·) line with
  | none => rfl
  | some m =>
    obtain ⟨hsuffix, hp⟩ := firstSuffix_eq_some hm
    have hmem : 'R' ∈ m := (List.isPrefixOf_iff_prefix.mp hp).subset (by decide)
    exact absurd (hsuffix.subset hmem) h

theorem read_subset (line : Text) : read line ⊆ line := by
  intro c hc
  have hdropWhile := (List.rdropWhile_prefix _ _).subset hc
  exact List.mem_of_mem_filter ((List.dropWhile_sublist _).subset hdropWhile)

/-- A line that begins and ends in print is read as it is. -/
theorem read_eq {line : Text} (hnull : '\x00' ∉ line) (hhead : ∀ c ∈ line.head?, isGraph c = true)
    (hlast : ∀ c ∈ line.getLast?, isGraph c = true) : read line = line := by
  have hblank : ∀ c, isGraph c = true → c ∉ [' ', '\t'] := by
    rintro c hc hmem
    simp only [List.mem_cons, List.not_mem_nil, or_false] at hmem
    rcases hmem with rfl | rfl
    all_goals exact absurd hc (by decide)
  have hfilter : line.filter (· ≠ '\x00') = line := by
    rw [List.filter_eq_self]
    intro c hc
    simp only [ne_eq, decide_not, Bool.not_eq_eq_eq_not, Bool.not_true, decide_eq_false_iff_not]
    rintro rfl
    exact hnull hc
  have hdrop : line.dropWhile (· ∈ [' ', '\t']) = line := by
    cases line with
    | nil => rfl
    | cons c s =>
      apply List.dropWhile_cons_of_neg
      rw [decide_eq_true_eq]
      exact hblank c (hhead c rfl)
  have hrdrop : line.rdropWhile (· ∈ [' ', '\t']) = line := by
    rw [List.rdropWhile_eq_self_iff]
    intro hne
    rw [decide_eq_true_eq]
    exact hblank _ (hlast _ (List.getLast?_eq_some_getLast hne))
  rw [read]
  simp only [hfilter, hdrop, hrdrop]

/-- Lines, each with its end. -/
def terminate (lines : List Text) : Text := lines.flatMap (· ++ newline)

theorem terminate_append (lines more : List Text) :
    terminate (lines ++ more) = terminate lines ++ terminate more := List.flatMap_append

theorem print_one (a : Text) : print [a] newline = terminate [a] := by
  simp [print, terminate, List.intercalate]

theorem print_two (a b : Text) : print [a, b] newline = terminate [a ++ ' ' :: b] := by
  simp [print, terminate, List.intercalate]

theorem print_three (a b c : Text) :
    print [a, b, c] newline = terminate [a ++ ' ' :: (b ++ ' ' :: c)] := by
  simp [print, terminate, List.intercalate]

/-- The text ends a line of its own. -/
theorem print_newline (a : Text) : print [newline ++ a] newline = terminate [[], a] := by
  simp [print, terminate, List.intercalate]

theorem print_blank (a b c : Text) :
    print [a, b, c ++ newline] newline = terminate [a ++ ' ' :: (b ++ ' ' :: c), []] := by
  simp [print, terminate, List.intercalate]

theorem print_open (a b c : Text) : print [a, b, c] [' '] = a ++ ' ' :: (b ++ ' ' :: (c ++ [' '])) := by
  simp [print, List.intercalate]

def compilationLine (v : Text) : Text := "Compilation of ".toList ++ ' ' :: (v ++ ' ' :: " failed".toList)

def compilingLine (key : Text) : Text := "Compiling ".toList ++ ' ' :: key

def linkingLine (v : Text) : Text := "Linking of ".toList ++ ' ' :: (v ++ ' ' :: " failed".toList)

/-- The start of a line, which the next print of `run` completes. -/
def runningPart (t : Text) : Text := "Running ".toList ++ ' ' :: (t ++ ' ' :: "... ".toList)

def thereAreLine (n : ℕ) : Text := "There are ".toList ++ ' ' :: (str n ++ ' ' :: " tests".toList)

namespace Suite

variable (S : Suite)

def linkLines (v : Text) : List Text → List Text
  | [] => []
  | lines :: rest =>
    lines :: if "error".toList <:+: lines then [linkingLine v, []] else linkLines v rest

def compiledLines (t : Test) : List Text :=
  if S.compiled t then
    compilingLine t.1 :: linkLines (t.2.getLastD []) (splitlines (S.ld t.1).stdout)
  else []

def runLines (pending : Text) : List Text → List Text
  | [] => [pending ++ thereAreLine S.tests.length]
  | t :: tests =>
    match S.verdict t with
    | some passs => (pending ++ runningPart t ++ passs) :: runLines [] tests
    | none => runLines (pending ++ runningPart t) tests

def logLines : List Text :=
  (S.tests.flatMap fun t => (S.announced t).map compilationLine ++ S.compiledLines t) ++
    [[], "Runnable tests are:".toList] ++ S.runnables ++ [[]] ++ S.runLines [] S.runnables ++
    [str S.runnables.length ++ ' ' :: " tests compiled successfully".toList,
      str S.pass_count ++ ' ' :: " tests ran successfully".toList]

theorem linkOutput_eq (v : Text) (lines : List Text) :
    linkOutput v lines = terminate (linkLines v lines) := by
  induction lines with
  | nil => rfl
  | cons line rest ih =>
    rw [linkOutput, linkLines, print_one, terminate, terminate, List.flatMap_cons, List.flatMap_cons]
    split_ifs
    · have hblank := print_blank "Linking of ".toList v " failed".toList
      have hfailed : " failed\n".toList = " failed".toList ++ newline := rfl
      rw [hfailed, hblank, List.flatMap_nil, List.append_nil]
      rfl
    · rw [ih, List.flatMap_nil, List.append_nil]
      rfl

theorem compileOutput_eq (t : Test) : S.compileOutput t =
    terminate ((S.announced t).map compilationLine ++ S.compiledLines t) := by
  rw [compileOutput, compiledLines, terminate_append]
  congr 1
  · rw [terminate, List.flatMap_map]
    apply List.flatMap_congr
    intro v _
    exact (print_three _ v _).trans (List.append_nil _)
  · split_ifs
    · rw [linkOutput_eq, print_two, ← terminate_append]
      rfl
    · rfl

theorem runOutput_eq (tests : List Text) (pending : Text) :
    pending ++ S.runOutput tests ++ terminate [thereAreLine S.tests.length] =
      terminate (S.runLines pending tests) := by
  induction tests generalizing pending with
  | nil => simp [runOutput, runLines, terminate]
  | cons t tests ih =>
    have hrunning : print ["Running ".toList, t, "...".toList] [' '] = runningPart t := print_open _ t _
    rw [runOutput, runLines, hrunning]
    generalize runningPart t = part
    cases S.verdict t with
    | none =>
      rw [← ih]
      simp only [List.append_assoc, List.nil_append]
    | some passs =>
      have hcons : terminate ((pending ++ part ++ passs) :: S.runLines [] tests) =
          terminate [pending ++ part ++ passs] ++ terminate (S.runLines [] tests) :=
        terminate_append [_] _
      rw [hcons, ← ih]
      simp only [print_one, List.append_assoc, List.nil_append]
      simp [terminate]

/-- The log, line by line. -/
theorem log_eq : S.log = terminate S.logLines := by
  have hcompile : S.tests.flatMap S.compileOutput =
      terminate (S.tests.flatMap fun t => (S.announced t).map compilationLine ++ S.compiledLines t) := by
    rw [terminate, List.flatMap_assoc]
    exact List.flatMap_congr fun t _ => S.compileOutput_eq t
  have hrunnable : print ["\nRunnable tests are:".toList] newline =
      terminate [[], "Runnable tests are:".toList] := print_newline "Runnable tests are:".toList
  have hrunnables : (S.runnables.flatMap fun r => print [r] newline) = terminate S.runnables := by
    simp [print_one, terminate]
  have hrun := S.runOutput_eq S.runnables []
  rw [List.nil_append] at hrun
  have hlast (a b : Text) : terminate [a, b] = terminate [a] ++ terminate [b] := terminate_append [a] [b]
  have hthere : print ["There are ".toList, str S.tests.length, " tests".toList] newline =
      terminate [thereAreLine S.tests.length] := print_three _ _ _
  have hblank : print [] newline = terminate [[]] := rfl
  rw [log, logLines, hcompile, hrunnable, hrunnables, hblank, hthere, print_two, print_two]
  simp only [terminate_append, hlast, ← hrun, List.append_assoc]

end Suite

end Aomp.Testing.LLNL
