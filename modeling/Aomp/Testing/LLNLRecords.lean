import Mathlib.Data.List.Count
import Mathlib.Data.List.Nodup
import Aomp.Testing.LLNLVerdicts

/-!
# Which tests of LLNL are recorded

The records are those of the lines of the log. What the builds leave are the names of the files
that are announced; what the runs leave is one verdict for every line that a verdict ends. Where
nothing else reads as a verdict, this gives the exact condition under which every test is
recorded once and in its place.
-/

namespace Aomp.Testing.LLNL

open Foundations

/-- What the tests of a well-formed list have in common. -/
structure TestsOk (d : List Test) : Prop where
  nodup : (d.map Prod.fst).Nodup
  key : ∀ t ∈ d, "test_".toList <+: t.1 ∧ Graphic t.1
  file : ∀ t ∈ d, ∀ v ∈ t.2, "test_".toList <:+: v ∧ Graphic v

theorem isGraph_of_isNameChar {c : Char} (h : isNameChar c = true) : isGraph c = true := by
  simp only [isNameChar, Char.isAlphanum, Char.isAlpha, Char.isUpper, Char.isLower,
    Bool.or_eq_true, Bool.and_eq_true, decide_eq_true_eq, List.mem_cons, List.not_mem_nil, or_false] at h
  rcases h with (((⟨hlow, hhigh⟩ | ⟨hlow, hhigh⟩) | h) | (rfl | rfl | rfl))
  · have hlow : 65 ≤ c.toNat := hlow
    have hhigh : c.toNat ≤ 90 := hhigh
    rw [isGraph_iff]
    omega
  · have hlow : 97 ≤ c.toNat := hlow
    have hhigh : c.toNat ≤ 122 := hhigh
    rw [isGraph_iff]
    omega
  · exact isGraph_of_isDigit h
  all_goals decide

theorem graphic_of_isName {s : Text} (h : IsName s) : "test_".toList <:+: s ∧ Graphic s := by
  obtain ⟨body, suffix, rfl, -, hbody, hsuffix⟩ := h
  refine ⟨⟨[], body ++ suffix, by simp⟩, ?_⟩
  exact (Graphic.append (by decide) fun c hc => isGraph_of_isNameChar (hbody c hc)).append hsuffix

theorem key_of_isName {sline : List Text} (hne : sline ≠ []) (h : ∀ s ∈ sline, IsName s) :
    "test_".toList <+: keyOf sline ∧ Graphic (keyOf sline) := by
  obtain ⟨first, rest, rfl⟩ := List.exists_cons_of_ne_nil hne
  obtain ⟨body, suffix, rfl, hlen, hbody, -⟩ := h first (List.mem_cons_self ..)
  have hkey : keyOf (("test_".toList ++ body ++ suffix) :: rest) = "test_".toList ++ body := by
    rw [keyOf, List.headD_cons, List.length_append, hlen, Nat.add_sub_cancel]
    exact List.take_left
  rw [hkey]
  exact ⟨List.prefix_append _ _, Graphic.append (by decide) fun c hc => isGraph_of_isNameChar (hbody c hc)⟩

theorem testsOk_append {d : List Test} (hd : TestsOk d) {key s : Text}
    (hkey : "test_".toList <+: key ∧ Graphic key) (hs : "test_".toList <:+: s ∧ Graphic s) :
    TestsOk (append d key s) := by
  rw [append]
  split_ifs with hmem
  · have hfst : (d.map fun e => if e.1 = key then (e.1, e.2 ++ [s]) else e).map Prod.fst =
        d.map Prod.fst := by
      rw [List.map_map]
      apply List.map_congr_left
      intro e _
      simp only [Function.comp_apply]
      split_ifs <;> rfl
    constructor
    · rw [hfst]
      exact hd.nodup
    · intro t ht
      obtain ⟨e, he, rfl⟩ := List.mem_map.mp ht
      split_ifs
      · exact hd.key e he
      · exact hd.key e he
    · intro t ht v hv
      obtain ⟨e, he, rfl⟩ := List.mem_map.mp ht
      split_ifs at hv
      · obtain hv | hv := List.mem_append.mp hv
        · exact hd.file e he v hv
        · rw [List.mem_singleton.mp hv]
          exact hs
      · exact hd.file e he v hv
  · constructor
    · rw [List.map_append, List.nodup_append]
      refine ⟨hd.nodup, List.pairwise_singleton _ _, ?_⟩
      rintro k hk _ hkey' rfl
      rw [List.map_singleton, List.mem_singleton] at hkey'
      exact hmem (hkey'.subst (motive := (· ∈ d.map Prod.fst)) hk)
    · intro t ht
      obtain ht | ht := List.mem_append.mp ht
      · exact hd.key t ht
      · rw [List.mem_singleton.mp ht]
        exact hkey
    · intro t ht v hv
      obtain ht | ht := List.mem_append.mp ht
      · exact hd.file t ht v hv
      · rw [List.mem_singleton.mp ht, List.mem_singleton] at hv
        rw [hv]
        exact hs

theorem testsOk_words {sline : List Text} (hne : sline ≠ []) (hsline : ∀ s ∈ sline, IsName s)
    {words : List Text} (hwords : ∀ s ∈ words, IsName s) {d : List Test} (hd : TestsOk d) :
    TestsOk (words.foldl (fun d s => append d (keyOf sline) s) d) := by
  induction words generalizing d with
  | nil => exact hd
  | cons s words ih =>
    rw [List.forall_mem_cons] at hwords
    apply ih hwords.2
    exact testsOk_append hd (key_of_isName hne hsline) (graphic_of_isName hwords.1)

theorem testsOk_lines {lines : List Text} (h : ∀ line ∈ lines, ∀ s ∈ split line, IsName s)
    {d : List Test} (hd : TestsOk d) :
    TestsOk (lines.foldl (fun d line =>
      let sline := split line
      sline.foldl (fun d s => append d (keyOf sline) s) d) d) := by
  induction lines generalizing d with
  | nil => exact hd
  | cons line lines ih =>
    rw [List.forall_mem_cons] at h
    apply ih h.2
    by_cases hne : split line = []
    · simpa [hne] using hd
    · exact testsOk_words hne h.1 h.1 hd

theorem testsOk_get_tests {infile : List Text} (h : ∀ line ∈ infile, ∀ s ∈ split line, IsName s) :
    TestsOk (get_tests infile) :=
  testsOk_lines h ⟨List.nodup_nil, by simp, by simp⟩

theorem newline_not_mem_splitlinesFrom {cur s : Text} (hcur : '\n' ∉ cur) :
    ∀ l ∈ splitlinesFrom cur s, '\n' ∉ l := by
  fun_induction splitlinesFrom cur s with
  | case1 => simp
  | case2 cur hne => simpa using hcur
  | case3 cur s ih =>
    rw [List.forall_mem_cons]
    exact ⟨hcur, ih (by simp)⟩
  | case4 cur c s _ hboundary ih =>
    rw [List.forall_mem_cons]
    exact ⟨hcur, ih (by simp)⟩
  | case5 cur c s _ hboundary ih =>
    apply ih
    rw [List.mem_append, List.mem_singleton, not_or]
    refine ⟨hcur, ?_⟩
    rintro rfl
    exact hboundary rfl

theorem Graphic.newline_not_mem {s : Text} (hs : Graphic s) : '\n' ∉ s := hs.not_mem rfl

theorem not_mem_pair {c : Char} (hc : c ≠ ' ') {a b : Text} (ha : c ∉ a) (hb : c ∉ b) :
    c ∉ a ++ ' ' :: b := by
  simp [ha, hb, hc]

theorem not_mem_words {c : Char} (hc : c ≠ ' ') {a b d : Text} (ha : c ∉ a) (hb : c ∉ b) (hd : c ∉ d) :
    c ∉ a ++ ' ' :: (b ++ ' ' :: d) :=
  not_mem_pair hc ha (not_mem_pair hc hb hd)

namespace Suite

variable {S : Suite}

theorem testsOk (hform : S.WellFormed) : TestsOk S.tests := testsOk_get_tests hform

theorem mem_runnables {k : Text} : k ∈ S.runnables ↔ ∃ t ∈ S.tests, S.built t = true ∧ t.1 = k := by
  simp [runnables, and_assoc]

theorem graphic_of_mem_runnables (hform : S.WellFormed) {k : Text} (hk : k ∈ S.runnables) :
    Graphic k := by
  obtain ⟨t, ht, -, rfl⟩ := mem_runnables.mp hk
  exact ((testsOk hform).key t ht).2

theorem newline_not_mem_linkLines {v : Text} (hv : '\n' ∉ v) {lines : List Text}
    (h : ∀ l ∈ lines, '\n' ∉ l) : ∀ l ∈ linkLines v lines, '\n' ∉ l := by
  induction lines with
  | nil => simp [linkLines]
  | cons line rest ih =>
    rw [List.forall_mem_cons] at h
    rw [linkLines, List.forall_mem_cons]
    refine ⟨h.1, ?_⟩
    split_ifs
    · have hline : '\n' ∉ linkingLine v := not_mem_words (by decide) (by decide) hv (by decide)
      simpa using hline
    · exact ih h.2

theorem newline_not_mem_verdict {t passs : Text} (h : S.verdict t = some passs) : '\n' ∉ passs := by
  rw [verdict] at h
  split_ifs at h
  · cases h
    decide
  · cases h
    decide

theorem newline_not_mem_runLines {tests : List Text} (h : ∀ t ∈ tests, Graphic t) {pending : Text}
    (hpending : '\n' ∉ pending) : ∀ l ∈ S.runLines pending tests, '\n' ∉ l := by
  induction tests generalizing pending with
  | nil =>
    have hthere : '\n' ∉ thereAreLine S.tests.length :=
      not_mem_words (by decide) (by decide) (not_mem_str rfl _) (by decide)
    simp [runLines, hpending, hthere]
  | cons t tests ih =>
    rw [List.forall_mem_cons] at h
    have hrunning : '\n' ∉ runningPart t :=
      not_mem_words (by decide) (by decide) h.1.newline_not_mem (by decide)
    rw [runLines]
    cases hverdict : S.verdict t with
    | none => exact ih h.2 (by simp [hpending, hrunning])
    | some passs =>
      rw [List.forall_mem_cons]
      exact ⟨by simp [hpending, hrunning, newline_not_mem_verdict hverdict], ih h.2 (by simp)⟩

theorem mem_of_mem_announced {t : Test} {v : Text} (h : v ∈ S.announced t) : v ∈ t.2 := by
  obtain ⟨e, he, rfl⟩ := List.mem_map.mp h
  exact List.fst_mem_of_mem_zipIdx (List.mem_of_mem_filter he)

theorem newline_not_mem_compiledLines {t : Test} (hkey : Graphic t.1) (hfile : ∀ v ∈ t.2, Graphic v) :
    ∀ l ∈ S.compiledLines t, '\n' ∉ l := by
  rw [compiledLines]
  split_ifs
  · rw [List.forall_mem_cons]
    constructor
    · exact not_mem_pair (by decide) (by decide) hkey.newline_not_mem
    · apply newline_not_mem_linkLines
      · rw [List.getLastD_eq_getLast?]
        cases hlast : t.2.getLast? with
        | none => simp
        | some v => exact (hfile v (List.mem_of_getLast? hlast)).newline_not_mem
      · exact newline_not_mem_splitlinesFrom (by simp)
  · simp

theorem newline_not_mem_logLines (hform : S.WellFormed) : ∀ l ∈ S.logLines, '\n' ∉ l := by
  have hok := testsOk hform
  have hrunnables : ∀ k ∈ S.runnables, Graphic k := fun k hk => graphic_of_mem_runnables hform hk
  have htail (n : ℕ) {a : Text} (ha : '\n' ∉ a) : '\n' ∉ str n ++ ' ' :: a :=
    not_mem_pair (by decide) (not_mem_str rfl n) ha
  intro l hl
  simp only [logLines, List.mem_append, List.mem_flatMap, List.mem_map, List.mem_cons,
    List.not_mem_nil, or_false] at hl
  rcases hl with ((((⟨t, ht, ⟨v, hv, rfl⟩ | hl⟩ | rfl | rfl) | hl) | rfl) | hl) | rfl | rfl
  · have hgraphic := (hok.file t ht v (mem_of_mem_announced hv)).2
    exact not_mem_words (by decide) (by decide) hgraphic.newline_not_mem (by decide)
  · exact newline_not_mem_compiledLines (hok.key t ht).2 (fun v hv => (hok.file t ht v hv).2) l hl
  · simp
  · decide
  · exact (hrunnables l hl).newline_not_mem
  · simp
  · exact newline_not_mem_runLines hrunnables (by simp) l hl
  · exact htail _ (by decide)
  · exact htail _ (by decide)

def recordsOf (S : Suite) (lines : List Text) : List (Outfile × Text) :=
  lines.flatMap fun line => parseLine S.xfail_list (read line)

theorem records_eq (hform : S.WellFormed) : S.records = S.recordsOf S.logLines := by
  have hlines : linesFrom '\n' [] S.log = S.logLines := by
    rw [S.log_eq]
    exact linesFrom_flatMap (newline_not_mem_logLines hform)
  rw [records, parse, hlines, recordsOf]

end Suite

theorem mem_parseLine {xfail_list : List Text} {line : Text} {r : Outfile × Text}
    (h : r ∈ parseLine xfail_list line) : r.2 = testname_regex line := by
  rw [parseLine, List.mem_append] at h
  obtain h | h := h
  · split_ifs at h
    · rw [List.mem_singleton.mp h]
    · simp at h
  · cases hrun : runtime_regex line with
    | none => simp [hrun] at h
    | some result =>
      simp only [hrun, List.mem_singleton] at h
      rw [h]

def NoVerdict (line : Text) : Prop := compile_regex (read line) = false ∧ runtime_regex (read line) = none

instance (line : Text) : Decidable (NoVerdict line) := inferInstanceAs (Decidable (_ ∧ _))

theorem NoVerdict.parseLine_eq {line : Text} (h : NoVerdict line) (xfail_list : List Text) :
    parseLine xfail_list (read line) = [] := by
  simp [parseLine, h.1, h.2]

theorem noVerdict_of_not_mem {line : Text} (hC : 'C' ∉ line) (hR : 'R' ∉ line) : NoVerdict line := by
  constructor
  · apply compile_regex_eq_false
    intro hpart
    exact hC (read_subset line (hpart.subset (by decide)))
  · exact runtime_regex_eq_none' fun hmem => hR (read_subset line hmem)

theorem Graphic.read_eq {s : Text} (hs : Graphic s) : read s = s :=
  LLNL.read_eq (hs.not_mem rfl) (fun c hc => hs c (List.mem_of_mem_head? hc))
    (fun c hc => hs c (List.mem_of_getLast? hc))

theorem Graphic.noVerdict {s : Text} (hs : Graphic s) (h : compile_regex s = false) : NoVerdict s := by
  rw [NoVerdict, hs.read_eq]
  exact ⟨h, runtime_regex_eq_none fun c hc => isSpace_of_isGraph (hs c hc)⟩

theorem getLast_words {c : Text} (hc : c.getLast?.any isGraph = true) (a b : Text) :
    (a ++ ' ' :: (b ++ ' ' :: c)).getLast?.any isGraph = true := by
  obtain ⟨e, he, hgraph⟩ := (Option.any_eq_true _ _).mp hc
  simp [List.getLast?_append, List.getLast?_cons, he, hgraph]

theorem read_words {a b c : Text} (ha : a.head?.any isGraph = true) (hc : c.getLast?.any isGraph = true)
    (hna : '\x00' ∉ a) (hnb : '\x00' ∉ b) (hnc : '\x00' ∉ c) :
    read (a ++ ' ' :: (b ++ ' ' :: c)) = a ++ ' ' :: (b ++ ' ' :: c) := by
  obtain ⟨d, hd, hgraph⟩ := (Option.any_eq_true _ _).mp ha
  obtain ⟨e, he, hgraph'⟩ := (Option.any_eq_true _ _).mp hc
  apply read_eq (not_mem_words (by decide) hna hnb hnc)
  · simp [List.head?_append, hd, hgraph]
  · simp [List.getLast?_append, List.getLast?_cons, he, hgraph']

theorem read_pair {a b : Text} (ha : a.head?.any isGraph = true) (hna : '\x00' ∉ a) (hb : Graphic b)
    (hne : b ≠ []) : read (a ++ ' ' :: b) = a ++ ' ' :: b := by
  obtain ⟨d, hd, hgraph⟩ := (Option.any_eq_true _ _).mp ha
  apply read_eq (not_mem_pair (by decide) hna (hb.not_mem rfl))
  · simp [List.head?_append, hd, hgraph]
  · intro c hc
    rw [List.getLast?_append, List.getLast?_cons_of_ne_nil hne, List.getLast?_eq_some_getLast hne] at hc
    cases hc
    exact hb _ (List.getLast_mem hne)

/-- The name of a line is that of the one word with a name. -/
theorem testname_words {t b : Text} (ht : "test_".toList <:+: t) (hb : ¬ "test_".toList <:+: b)
    (a : Text) :
    testname_regex (a ++ ' ' :: (t ++ ' ' :: b)) = testname_regex t := by
  have hsplit : a ++ ' ' :: (t ++ ' ' :: b) = (a ++ [' ']) ++ (t ++ ' ' :: b) := by simp
  have hnone : lastSuffix ("test_".toList.isPrefixOf ·) (' ' :: b) = none := by
    apply noTest
    intro hpart
    obtain hnil | hright := (infix_append_cons (by decide) [] b).mp hpart
    · exact absurd hnil (by decide)
    · exact hb hright
  rw [hsplit, testname_append (ht.trans (List.prefix_append _ _).isInfix),
    testname_append_space (by decide) hnone]

theorem parse_compilationLine {v : Text} (hv : "test_".toList <:+: v ∧ Graphic v)
    (hrun : runtime_regex (compilationLine v) = none) (xfail_list : List Text) :
    parseLine xfail_list (read (compilationLine v)) = [(.make_fail, testname_regex v)] := by
  have hread : read (compilationLine v) = compilationLine v :=
    read_words (by decide) (by decide) (by decide) (hv.2.not_mem rfl) (by decide)
  have hcompile : compile_regex (compilationLine v) = true := by
    refine (followedBy_iff (by decide)).mpr ⟨_, _, rfl, by decide, ?_⟩
    have hfailed : "failed".toList <:+: v ++ ' ' :: " failed".toList :=
      (infix_append_cons (by decide) v _).mpr (.inr (by decide))
    exact hfailed.trans (List.suffix_cons _ _).isInfix
  have hname : testname_regex (compilationLine v) = testname_regex v :=
    testname_words hv.1 (by decide) _
  simp [hread, parseLine, hcompile, hname, hrun]

/-- A word that ends the line of a test. -/
structure Ending (w : Text) : Prop where
  read : w.getLast?.any isGraph = true ∧ '\x00' ∉ w
  dots : '.' ∉ w
  name : ¬ "test_".toList <:+: w
  failed : ¬ "failed".toList <:+: w

theorem ending_passed : Ending "Passed".toList := by constructor <;> decide

theorem ending_failed : Ending "Failed".toList := by constructor <;> decide

theorem ending_thereAreLine (n : ℕ) : Ending (thereAreLine n) := by
  have hmem {c : Char} (hc : c ≠ ' ') (ha : c ∉ "There are ".toList) (hd : c.isDigit = false)
      (hb : c ∉ " tests".toList) : c ∉ thereAreLine n :=
    not_mem_words hc ha (not_mem_str hd n) hb
  constructor
  · refine ⟨?_, hmem (by decide) (by decide) (by decide) (by decide)⟩
    exact getLast_words (by decide) _ _
  · exact hmem (by decide) (by decide) (by decide) (by decide)
  · intro h
    exact hmem (c := '_') (by decide) (by decide) (by decide) (by decide) (h.subset (by decide))
  · intro h
    exact hmem (c := 'f') (by decide) (by decide) (by decide) (by decide) (h.subset (by decide))

theorem noVerdict_thereAreLine {n : ℕ} : NoVerdict (thereAreLine n) :=
  noVerdict_of_not_mem (not_mem_words (by decide) (by decide) (not_mem_str rfl n) (by decide))
    (not_mem_words (by decide) (by decide) (not_mem_str rfl n) (by decide))

theorem ending_of_verdict {S : Suite} {t w : Text} (h : S.verdict t = some w) : Ending w := by
  rw [Suite.verdict] at h
  split_ifs at h
  · cases h
    exact ending_failed
  · cases h
    exact ending_passed

theorem words_append (a b c w : Text) :
    a ++ ' ' :: (b ++ ' ' :: c) ++ w = a ++ ' ' :: (b ++ ' ' :: (c ++ w)) := by
  simp

/-- The words of a line of the runs. -/
theorem runningPart_append (t w : Text) :
    runningPart t ++ w = "Running ".toList ++ ' ' :: (t ++ ' ' :: ("... ".toList ++ w)) :=
  words_append _ t _ w

theorem not_infix_dots {pat w : Text} (hspace : ' ' ∉ pat) (hdots : ¬ pat <:+: "...".toList)
    (hw : ¬ pat <:+: w) : ¬ pat <:+: "... ".toList ++ w := by
  intro h
  obtain h | h := (infix_append_cons hspace "...".toList w).mp h
  · exact hdots h
  · exact hw h

theorem testname_running {p t w : Text} (ht : "test_".toList <:+: t) (hw : Ending w) :
    testname_regex (p ++ runningPart t ++ w) = testname_regex t := by
  have hb : ¬ "test_".toList <:+: "... ".toList ++ w := not_infix_dots (by decide) (by decide) hw.name
  have hname := testname_words ht hb (p ++ "Running ".toList)
  rw [List.append_assoc] at hname
  rw [List.append_assoc, runningPart_append, hname]

/-- The part of a line that is still open. -/
structure Pending (p : Text) : Prop where
  head : ∀ c ∈ p.head?, isGraph c = true
  null : '\x00' ∉ p

theorem append_runningPart_ne_nil (p t : Text) : p ++ runningPart t ≠ [] :=
  List.append_ne_nil_of_right_ne_nil _ (List.append_ne_nil_of_right_ne_nil _ (List.cons_ne_nil _ _))

theorem pending_nil : Pending [] := by constructor <;> simp

theorem pending_running {p t : Text} (hp : Pending p) (ht : Graphic t) :
    Pending (p ++ runningPart t) := by
  constructor
  · have hhead : (runningPart t).head? = some 'R' := rfl
    intro c hc
    rw [List.head?_append, hhead, Option.mem_def, Option.or_eq_some_iff] at hc
    obtain hc | ⟨-, hc⟩ := hc
    · exact hp.head c hc
    · cases hc
      decide
  · rw [List.mem_append, not_or]
    exact ⟨hp.null, not_mem_words (by decide) (by decide) (ht.not_mem rfl) (by decide)⟩

theorem read_pending {p w : Text} (hp : Pending p) (hne : p ≠ []) (hw : Ending w) :
    read (p ++ w) = p ++ w := by
  obtain ⟨d, hd, hgraph⟩ := (Option.any_eq_true _ _).mp hw.read.1
  obtain ⟨c, s, rfl⟩ := List.exists_cons_of_ne_nil hne
  apply read_eq
  · rw [List.mem_append, not_or]
    exact ⟨hp.null, hw.read.2⟩
  · simpa using hp.head
  · rw [List.getLast?_append, hd]
    simpa using hgraph

theorem words_cons (a b c : Text) :
    (a ++ [' ']) ++ ' ' :: (b ++ ' ' :: c) = a ++ ' ' :: ((' ' :: b ++ [' ']) ++ c) := by
  simp

theorem runtime_running {t w : Text} (hw : Ending w) :
    runtime_regex (runningPart t ++ w) = some (resultOf (' ' :: w)) := by
  have hline : runningPart t ++ w =
      "Running".toList ++ ' ' :: ((' ' :: t ++ [' ']) ++ ("... ".toList ++ w)) := by
    rw [runningPart_append]
    exact words_cons "Running".toList t _
  have hdots := lastSuffix_append_of_some (lastSuffix_isDots hw.dots) (' ' :: t ++ [' '])
  rw [hline, runtime_regex_of_dots hdots]
  rfl

theorem compile_running {t w : Text} (hw : Ending w) :
    compile_regex (runningPart t ++ w) = compile_regex t := by
  have hb : ¬ "failed".toList <:+: "... ".toList ++ w := not_infix_dots (by decide) (by decide) hw.failed
  rw [runningPart_append, compile_regex_right (by decide), compile_regex_left hb]

namespace Suite

variable {S : Suite}

theorem recordsOf_append (lines more : List Text) :
    S.recordsOf (lines ++ more) = S.recordsOf lines ++ S.recordsOf more := List.flatMap_append

theorem recordsOf_cons (line : Text) (lines : List Text) :
    S.recordsOf (line :: lines) = parseLine S.xfail_list (read line) ++ S.recordsOf lines :=
  List.flatMap_cons

theorem recordsOf_eq_nil {lines : List Text} (h : ∀ l ∈ lines, NoVerdict l) : S.recordsOf lines = [] :=
  List.flatMap_eq_nil_iff.mpr fun l hl => (h l hl).parseLine_eq _

def finishers (S : Suite) : List Text → List Text
  | [] => []
  | t :: tests =>
    if (S.verdict t).isSome || tests.isEmpty then t :: S.finishers tests else S.finishers tests

theorem mem_finishers_cons {t u : Text} {tests : List Text} (h : u ∈ S.finishers tests) :
    u ∈ S.finishers (t :: tests) := by
  rw [finishers]
  split_ifs
  · exact List.mem_cons_of_mem _ h
  · exact h

/-- Only a test that ends a line is recorded for it. -/
theorem name_of_mem_runLines {tests : List Text} (h : ∀ t ∈ tests, "test_".toList <:+: t ∧ Graphic t)
    {p : Text} (hp : Pending p) {r : Outfile × Text} (hr : r ∈ S.recordsOf (S.runLines p tests)) :
    (∃ t ∈ S.finishers tests, r.2 = testname_regex t) ∨
      (tests = [] ∧ p ≠ [] ∧ r.2 = testname_regex (p ++ thereAreLine S.tests.length)) := by
  induction tests generalizing p with
  | nil =>
    right
    rw [runLines, recordsOf_cons, recordsOf, List.flatMap_nil, List.append_nil] at hr
    by_cases hne : p = []
    · rw [hne, List.nil_append, noVerdict_thereAreLine.parseLine_eq] at hr
      simp at hr
    · rw [read_pending hp hne (ending_thereAreLine _)] at hr
      exact ⟨rfl, hne, mem_parseLine hr⟩
  | cons t tests ih =>
    left
    rw [List.forall_mem_cons] at h
    rw [runLines] at hr
    cases hverdict : S.verdict t with
    | some passs =>
      have hending := ending_of_verdict hverdict
      have hpending := pending_running hp h.1.2
      have hfinish : t ∈ S.finishers (t :: tests) := by simp [finishers, hverdict]
      simp only [hverdict, recordsOf_cons, List.mem_append] at hr
      obtain hr | hr := hr
      · rw [read_pending hpending (append_runningPart_ne_nil p t) hending] at hr
        exact ⟨t, hfinish, (mem_parseLine hr).trans (testname_running h.1.1 hending)⟩
      · obtain ⟨u, hu, hname⟩ | ⟨-, hne, -⟩ := ih h.2 pending_nil hr
        · exact ⟨u, mem_finishers_cons hu, hname⟩
        · exact absurd rfl hne
    | none =>
      simp only [hverdict] at hr
      obtain ⟨u, hu, hname⟩ | ⟨rfl, -, hname⟩ := ih h.2 (pending_running hp h.1.2) hr
      · exact ⟨u, mem_finishers_cons hu, hname⟩
      · rw [testname_running h.1.1 (ending_thereAreLine _)] at hname
        exact ⟨t, by simp [finishers], hname⟩

/-- The word after the dots. -/
def result (S : Suite) (t : Text) : Text := (S.verdict t).getD "There".toList

def recordOf (S : Suite) (t : Text) : Outfile × Text :=
  (outfile S.xfail_list (S.result t) (testname_regex t), testname_regex t)

theorem parse_running {t w : Text} (ht : "test_".toList <:+: t ∧ Graphic t)
    (hcompile : compile_regex t = false)
    (hw : Ending w) (hresult : resultOf (' ' :: w) = S.result t) :
    parseLine S.xfail_list (read (runningPart t ++ w)) = [S.recordOf t] := by
  have hpending : Pending (runningPart t) := pending_running pending_nil ht.2
  have hname := testname_running (p := []) ht.1 hw
  rw [List.nil_append] at hname
  rw [read_pending hpending (append_runningPart_ne_nil [] t) hw]
  simp [parseLine, compile_running hw, hcompile, runtime_running hw, hresult, hname, recordOf]

theorem resultOf_verdict {t w : Text} (h : S.verdict t = some w) : resultOf (' ' :: w) = S.result t := by
  rw [result, h]
  rw [verdict] at h
  split_ifs at h
  · cases h
    rfl
  · cases h
    rfl

theorem recordsOf_runLines {tests : List Text}
    (h : ∀ t ∈ tests, ("test_".toList <:+: t ∧ Graphic t) ∧ compile_regex t = false)
    (hverdict : ∀ t ∈ tests.dropLast, (S.verdict t).isSome = true) :
    S.recordsOf (S.runLines [] tests) = tests.map S.recordOf := by
  induction tests with
  | nil => exact recordsOf_eq_nil (by simpa [runLines] using noVerdict_thereAreLine)
  | cons t tests ih =>
    rw [List.forall_mem_cons] at h
    rw [runLines, List.nil_append, List.map_cons]
    cases hv : S.verdict t with
    | some w =>
      have htail : ∀ u ∈ tests.dropLast, (S.verdict u).isSome = true := by
        intro u hu
        apply hverdict
        cases tests with
        | nil => simp at hu
        | cons v tests => exact List.mem_cons_of_mem _ hu
      rw [recordsOf_cons, parse_running h.1.1 h.1.2 (ending_of_verdict hv) (resultOf_verdict hv),
        ih h.2 htail, List.singleton_append]
    | none =>
      cases tests with
      | nil =>
        have hresult : resultOf (' ' :: thereAreLine S.tests.length) = S.result t := by
          rw [result, hv]
          rfl
        have hparse := parse_running h.1.1 h.1.2 (ending_thereAreLine _) hresult
        simp only [runLines, recordsOf_cons, hparse]
        rfl
      | cons u tests =>
        have hsome := hverdict t (List.mem_cons_self ..)
        simp [hv] at hsome

/-- No line but a verdict reads as one: neither the line that announces a file as the verdict of a
run, nor the name of a test that compiled or the output of its link as any verdict. -/
structure Readable (S : Suite) : Prop where
  announced : ∀ t ∈ S.tests, ∀ v ∈ S.announced t, runtime_regex (compilationLine v) = none
  compiled : ∀ t ∈ S.tests, ∀ line ∈ S.compiledLines t, NoVerdict line

def announcedNames (S : Suite) : List Text := (S.tests.flatMap S.announced).map testname_regex

theorem compiledLines_of_compiled {t : Test} (h : S.compiled t = true) : S.compiledLines t =
    compilingLine t.1 :: linkLines (t.2.getLastD []) (splitlines (S.ld t.1).stdout) := if_pos h

theorem compile_regex_of_readable (hform : S.WellFormed) (hread : S.Readable) {k : Text}
    (hk : k ∈ S.runnables) : compile_regex k = false := by
  obtain ⟨t, ht, hbuilt, rfl⟩ := mem_runnables.mp hk
  rw [built, Bool.and_eq_true] at hbuilt
  obtain ⟨hstart, hgraphic⟩ := (testsOk hform).key t ht
  have hlines := hread.compiled t ht
  rw [compiledLines_of_compiled hbuilt.1, List.forall_mem_cons] at hlines
  have hcompile := hlines.1.1
  have hne : t.1 ≠ [] := by
    intro hnil
    rw [hnil] at hstart
    exact absurd hstart (by decide)
  have hpair : read (compilingLine t.1) = compilingLine t.1 :=
    read_pair (by decide) (by decide) hgraphic hne
  have hname : compile_regex (compilingLine t.1) = compile_regex t.1 :=
    compile_regex_right (by decide) t.1
  rw [← hname, ← hpair]
  exact hcompile

theorem recordsOf_builds (hform : S.WellFormed) (hread : S.Readable) :
    S.recordsOf (S.tests.flatMap fun t => (S.announced t).map compilationLine ++ S.compiledLines t) =
      S.announcedNames.map fun name => (.make_fail, name) := by
  have htest (t : Test) (ht : t ∈ S.tests) :
      S.recordsOf ((S.announced t).map compilationLine ++ S.compiledLines t) =
        (S.announced t).map fun v => (.make_fail, testname_regex v) := by
    have hfile := (testsOk hform).file t ht
    rw [recordsOf_append, recordsOf_eq_nil (hread.compiled t ht), List.append_nil, recordsOf,
      List.flatMap_map, List.map_eq_flatMap]
    apply List.flatMap_congr
    intro v hv
    exact parse_compilationLine (hfile v (mem_of_mem_announced hv)) (hread.announced t ht v hv) _
  rw [announcedNames, List.map_map, List.map_flatMap, recordsOf, List.flatMap_assoc]
  exact List.flatMap_congr htest

theorem records_of_readable (hform : S.WellFormed) (hread : S.Readable) :
    S.records = (S.announcedNames.map fun name => (.make_fail, name)) ++
      S.recordsOf (S.runLines [] S.runnables) := by
  have hhead : S.recordsOf [[], "Runnable tests are:".toList] = [] := by
    apply recordsOf_eq_nil
    simp only [List.mem_cons, List.not_mem_nil, or_false, forall_eq_or_imp, forall_eq]
    exact ⟨by constructor <;> decide, by constructor <;> decide⟩
  have hrunnables : S.recordsOf S.runnables = [] := by
    apply recordsOf_eq_nil
    intro k hk
    exact (graphic_of_mem_runnables hform hk).noVerdict (compile_regex_of_readable hform hread hk)
  have hblank : S.recordsOf [[]] = [] := by
    apply recordsOf_eq_nil
    simp only [List.mem_cons, List.not_mem_nil, or_false, forall_eq]
    constructor <;> decide
  have htail (n : ℕ) {a : Text} (hC : 'C' ∉ a) (hR : 'R' ∉ a) : NoVerdict (str n ++ ' ' :: a) :=
    noVerdict_of_not_mem (not_mem_pair (by decide) (not_mem_str rfl n) hC)
      (not_mem_pair (by decide) (not_mem_str rfl n) hR)
  have hcounts : S.recordsOf [str S.runnables.length ++ ' ' :: " tests compiled successfully".toList,
      str S.pass_count ++ ' ' :: " tests ran successfully".toList] = [] := by
    apply recordsOf_eq_nil
    simp only [List.mem_cons, List.not_mem_nil, or_false, forall_eq_or_imp, forall_eq]
    exact ⟨htail _ (by decide) (by decide), htail _ (by decide) (by decide)⟩
  rw [records_eq hform, logLines]
  simp only [recordsOf_append, hhead, hrunnables, hblank, hcounts, recordsOf_builds hform hread,
    List.append_nil]

/-- When the records are right: the names of the announced files are those of the tests that did
not build, the tests that ran are called by their own names and are followed by their verdicts,
and a failing test whose name occurs in `xfail-list` is listed there. -/
structure Reports (S : Suite) : Prop where
  announced : ∀ t ∈ S.tests, S.announcedNames.count t.1 = if S.built t then 0 else 1
  own_name : ∀ k ∈ S.runnables, testname_regex k = k
  verdict : ∀ k ∈ S.runnables.dropLast, (S.verdict k).isSome = true
  listed : ∀ k ∈ S.runnables, S.passs k = false → grep S.xfail_list k = true → S.listed k = true

theorem mem_file {f : Outfile} {name : Text} : name ∈ S.file f ↔ (f, name) ∈ S.records := by
  simp [file]

/-- The four files together hold every record. -/
theorem count_files (name : Text) :
    (S.file .passing_tests ++ S.file .failing_tests ++ S.file .xfail_tests ++ S.file .make_fail).count name =
      (S.records.map Prod.snd).count name := by
  simp only [file]
  induction S.records with
  | nil => rfl
  | cons r records ih =>
    obtain ⟨f, n⟩ := r
    simp only [List.count_append] at ih ⊢
    cases f <;> simp [List.count_cons, ← ih] <;> omega

theorem mem_runnables_iff (hform : S.WellFormed) {t : Test} (ht : t ∈ S.tests) :
    t.1 ∈ S.runnables ↔ S.built t = true := by
  rw [mem_runnables]
  constructor
  · rintro ⟨u, hu, hbuilt, hkey⟩
    rwa [← List.inj_on_of_nodup_map (testsOk hform).nodup hu ht hkey]
  · exact fun hbuilt => ⟨t, ht, hbuilt, rfl⟩

theorem nodup_runnables (hform : S.WellFormed) : S.runnables.Nodup :=
  (testsOk hform).nodup.sublist (List.filter_sublist.map _)

theorem result_eq_passed {k : Text} : S.result k = "Passed".toList ↔ S.passs k = true := by
  rw [result, verdict, passs]
  split_ifs with hcomplains hcode
  · simp [hcomplains]
  · simp [hcomplains, hcode]
  · simp [hcomplains, hcode]

theorem recordOf_eq {k : Text} (h : testname_regex k = k) :
    S.recordOf k = (outfile S.xfail_list (S.result k) k, k) := by
  rw [recordOf, h]

theorem outfile_ne_make_fail (xfail_list : List Text) (result name : Text) :
    outfile xfail_list result name ≠ .make_fail := by
  rw [outfile]
  split_ifs <;> simp

theorem graphic_runnable (hform : S.WellFormed) {k : Text} (hk : k ∈ S.runnables) :
    "test_".toList <:+: k ∧ Graphic k := by
  obtain ⟨t, ht, -, rfl⟩ := mem_runnables.mp hk
  obtain ⟨hstart, hgraphic⟩ := (testsOk hform).key t ht
  exact ⟨hstart.isInfix, hgraphic⟩

/-- With a verdict for all but the last test, the runs leave one record for each. -/
theorem records_of_verdict (hform : S.WellFormed) (hread : S.Readable)
    (hverdict : ∀ k ∈ S.runnables.dropLast, (S.verdict k).isSome = true) :
    S.records = (S.announcedNames.map fun name => (.make_fail, name)) ++ S.runnables.map S.recordOf := by
  rw [records_of_readable hform hread, recordsOf_runLines _ hverdict]
  exact fun k hk => ⟨graphic_runnable hform hk, compile_regex_of_readable hform hread hk⟩

theorem count_records (hform : S.WellFormed) (hread : S.Readable)
    (hname : ∀ k ∈ S.runnables, testname_regex k = k)
    (hverdict : ∀ k ∈ S.runnables.dropLast, (S.verdict k).isSome = true) {t : Test} (ht : t ∈ S.tests) :
    (S.records.map Prod.snd).count t.1 =
      S.announcedNames.count t.1 + if S.built t then 1 else 0 := by
  have hruns : (S.runnables.map S.recordOf).map Prod.snd = S.runnables := by
    rw [List.map_map]
    conv_rhs => rw [← List.map_id S.runnables]
    exact List.map_congr_left hname
  have hbuilds : (S.announcedNames.map fun name => (Outfile.make_fail, name)).map Prod.snd =
      S.announcedNames := by
    simp
  rw [records_of_verdict hform hread hverdict, List.map_append, hruns, hbuilds, List.count_append,
    List.Nodup.count (nodup_runnables hform)]
  simp only [mem_runnables_iff hform ht]

/-- The parts of `Reports` are enough. -/
theorem Reports.recordedOnce (h : S.Reports) (hform : S.WellFormed) (hread : S.Readable) {t : Test}
    (ht : t ∈ S.tests) : S.RecordedOnce t := by
  have hrecords := records_of_verdict hform hread h.verdict
  have hmem {f : Outfile} (hf : f ≠ .make_fail) : t.1 ∈ S.file f ↔
      S.built t = true ∧ outfile S.xfail_list (S.result t.1) t.1 = f := by
    rw [mem_file, hrecords, ← mem_runnables_iff hform ht, List.mem_append]
    constructor
    · rintro (hmem | hmem)
      · obtain ⟨name, -, heq⟩ := List.mem_map.mp hmem
        exact absurd (Prod.mk.inj heq).1.symm hf
      · obtain ⟨k, hk, heq⟩ := List.mem_map.mp hmem
        rw [recordOf_eq (h.own_name k hk), Prod.mk.injEq] at heq
        obtain ⟨rfl, rfl⟩ := heq
        exact ⟨hk, rfl⟩
    · rintro ⟨hk, rfl⟩
      right
      rw [List.mem_map]
      exact ⟨t.1, hk, recordOf_eq (h.own_name t.1 hk)⟩
  constructor
  · rw [count_files, count_records hform hread h.own_name h.verdict ht, h.announced t ht]
    split_ifs <;> rfl
  · rw [hmem (by simp), ← result_eq_passed, outfile]
    split_ifs <;> simp_all
  · have hcount : t.1 ∈ S.announcedNames ↔ S.built t = false := by
      rw [← List.count_pos_iff, h.announced t ht]
      cases S.built t <;> simp
    rw [mem_file, hrecords, ← hcount, List.mem_append]
    constructor
    · rintro (hmem | hmem)
      · obtain ⟨name, hname, heq⟩ := List.mem_map.mp hmem
        rwa [← (Prod.mk.inj heq).2]
      · obtain ⟨k, -, heq⟩ := List.mem_map.mp hmem
        exact absurd (Prod.mk.inj heq).1 (outfile_ne_make_fail _ _ _)
    · exact fun hname => .inl (List.mem_map.mpr ⟨t.1, hname, rfl⟩)
  · rw [hmem (by simp)]
    rintro ⟨hbuilt, hout⟩
    rw [outfile] at hout
    split_ifs at hout with hpassed hgrep
    have hpasss : S.passs t.1 = false := by
      rw [Bool.eq_false_iff]
      exact fun hp => hpassed (result_eq_passed.mpr hp)
    exact ⟨hbuilt, hpasss, h.listed t.1 ((mem_runnables_iff hform ht).mpr hbuilt) hpasss hgrep⟩

theorem mem_of_mem_finishers {tests : List Text} {k : Text} (h : k ∈ S.finishers tests) : k ∈ tests := by
  induction tests with
  | nil => exact h
  | cons t tests ih =>
    rw [finishers] at h
    split_ifs at h
    · obtain rfl | h := List.mem_cons.mp h
      · exact List.mem_cons_self ..
      · exact List.mem_cons_of_mem _ (ih h)
    · exact List.mem_cons_of_mem _ (ih h)

theorem not_mem_finishers {tests : List Text} (hnodup : tests.Nodup) {k : Text} (hk : k ∈ tests.dropLast)
    (hverdict : S.verdict k = none) : k ∉ S.finishers tests := by
  induction tests with
  | nil => simp at hk
  | cons t tests ih =>
    cases tests with
    | nil => simp at hk
    | cons u tests =>
      rw [List.nodup_cons] at hnodup
      rw [List.dropLast_cons_of_ne_nil (List.cons_ne_nil _ _)] at hk
      rw [finishers]
      obtain rfl | hk := List.mem_cons.mp hk
      · simp only [hverdict, Option.isSome_none, List.isEmpty_cons, Bool.or_self, Bool.false_eq_true,
          if_false]
        exact fun hmem => hnodup.1 (mem_of_mem_finishers hmem)
      · have hne : k ≠ t := fun heq => hnodup.1 (heq ▸ List.mem_of_mem_dropLast hk)
        split_ifs
        · rw [List.mem_cons, not_or]
          exact ⟨hne, ih hnodup.2 hk⟩
        · exact ih hnodup.2 hk

/-- Every record bears the last `test_` of something. -/
theorem name_of_mem_records (hform : S.WellFormed) (hread : S.Readable) {r : Outfile × Text}
    (hr : r ∈ S.records) :
    r.1 = .make_fail ∧ (∃ v, r.2 = testname_regex v) ∨ ∃ k ∈ S.finishers S.runnables, r.2 = testname_regex k := by
  rw [records_of_readable hform hread, List.mem_append] at hr
  obtain hr | hr := hr
  · left
    obtain ⟨name, hname, rfl⟩ := List.mem_map.mp hr
    obtain ⟨v, -, rfl⟩ := List.mem_map.mp hname
    exact ⟨rfl, v, rfl⟩
  · right
    obtain h | ⟨-, hne, -⟩ := name_of_mem_runLines (fun k hk => graphic_runnable hform hk) pending_nil hr
    · exact h
    · exact absurd rfl hne

/-- The parts of `Reports` are needed. -/
theorem reports_of_recordedOnce (hform : S.WellFormed) (hread : S.Readable)
    (h : ∀ t ∈ S.tests, S.RecordedOnce t) : S.Reports := by
  have hrecorded {t : Test} (ht : t ∈ S.tests) : ∃ f, (f, t.1) ∈ S.records := by
    have hcount := (h t ht).once
    rw [count_files] at hcount
    obtain ⟨r, hr, hname⟩ := List.mem_map.mp (List.count_pos_iff.mp (by rw [hcount]; decide))
    exact ⟨r.1, hname ▸ hr⟩
  have hown : ∀ k ∈ S.runnables, testname_regex k = k := by
    intro k hk
    obtain ⟨t, ht, -, rfl⟩ := mem_runnables.mp hk
    obtain ⟨f, hf⟩ := hrecorded ht
    obtain ⟨-, v, hv⟩ | ⟨u, -, hu⟩ := name_of_mem_records hform hread hf
    · have hname : t.1 = testname_regex v := hv
      rw [hname, testname_testname]
    · have hname : t.1 = testname_regex u := hu
      rw [hname, testname_testname]
  have hverdict : ∀ k ∈ S.runnables.dropLast, (S.verdict k).isSome = true := by
    intro k hk
    by_contra hnone
    rw [Bool.not_eq_true, Option.isSome_eq_false_iff, Option.isNone_iff_eq_none] at hnone
    obtain ⟨t, ht, hbuilt, rfl⟩ := mem_runnables.mp (List.mem_of_mem_dropLast hk)
    obtain ⟨f, hf⟩ := hrecorded ht
    obtain ⟨hmake, -⟩ | ⟨u, hu, hname⟩ := name_of_mem_records hform hread hf
    · have hmem : t.1 ∈ S.file .make_fail := mem_file.mpr (hmake ▸ hf)
      rw [(h t ht).make_fail, hbuilt] at hmem
      cases hmem
    · have hself : t.1 = u := hname.trans (hown u (mem_of_mem_finishers hu))
      rw [← hself] at hu
      exact not_mem_finishers (nodup_runnables hform) hk hnone hu
  constructor
  · intro t ht
    have hcount := (h t ht).once
    rw [count_files, count_records hform hread hown hverdict ht] at hcount
    split_ifs at hcount ⊢ <;> omega
  · exact hown
  · exact hverdict
  · intro k hk hpasss hgrep
    obtain ⟨t, ht, -, rfl⟩ := mem_runnables.mp hk
    have hresult : S.result t.1 ≠ "Passed".toList := by
      intro hpassed
      rw [result_eq_passed.mp hpassed] at hpasss
      cases hpasss
    have hmem : t.1 ∈ S.file .xfail_tests := by
      rw [mem_file, records_of_verdict hform hread hverdict, List.mem_append, List.mem_map, List.mem_map]
      right
      refine ⟨t.1, hk, ?_⟩
      rw [recordOf_eq (hown t.1 hk), outfile, if_neg hresult, if_pos hgrep]
    exact ((h t ht).xfail hmem).2.2

/-- Every test is recorded once and where it belongs exactly when the log reports every test,
as long as nothing but a verdict reads as one. -/
theorem recordedOnce_iff (hform : S.WellFormed) (hread : S.Readable) :
    (∀ t ∈ S.tests, S.RecordedOnce t) ↔ S.Reports :=
  ⟨reports_of_recordedOnce hform hread, fun h _ ht => h.recordedOnce hform hread ht⟩

/-- Two tests that build without output. -/
def twoTests (xfail_list : List Text) (loop nest : Process) : Suite where
  test_list := ["test_loop.cxx".toList, "test_loop_nest.cxx".toList]
  xfail_list := xfail_list
  cc := fun _ _ => ⟨[], 0⟩
  ld := fun _ => ⟨[], 0⟩
  exe := fun t => if t = "test_loop".toList then loop else nest

theorem wellFormed_twoTests (xfail_list : List Text) (loop nest : Process) :
    (twoTests xfail_list loop nest).WellFormed := by
  have hsuffix : ∀ c ∈ ".cxx".toList, isGraph c = true := List.all_eq_true.mp (by decide)
  have hloop : IsName "test_loop.cxx".toList :=
    ⟨"loop".toList, ".cxx".toList, rfl, rfl, List.all_eq_true.mp (by decide), hsuffix⟩
  have hnest : IsName "test_loop_nest.cxx".toList :=
    ⟨"loop_nest".toList, ".cxx".toList, rfl, rfl, List.all_eq_true.mp (by decide), hsuffix⟩
  have hsplit : split "test_loop.cxx".toList = ["test_loop.cxx".toList] := by decide
  have hsplit' : split "test_loop_nest.cxx".toList = ["test_loop_nest.cxx".toList] := by decide
  intro line hline s hs
  simp only [twoTests, List.mem_cons, List.not_mem_nil, or_false] at hline
  rcases hline with rfl | rfl
  · rw [hsplit, List.mem_singleton] at hs
    exact hs ▸ hloop
  · rw [hsplit', List.mem_singleton] at hs
    exact hs ▸ hnest

/-- One test passes, the other fails as `xfail-list` expects. -/
theorem recordedOnce_iff_expected :
    let S := twoTests ["test_loop_nest run".toList] ⟨[], 0⟩ ⟨"FAIL".toList, 1⟩
    ∀ t ∈ S.tests, S.RecordedOnce t :=
  (recordedOnce_iff (wellFormed_twoTests _ _ _) (by constructor <;> decide +kernel)).mpr
    (by constructor <;> decide +kernel)

/-- A test that crashes without a word leaves its line to the next test and is in no file. -/
theorem not_recordedOnce_crashed :
    let S := twoTests [] ⟨[], 139⟩ ⟨[], 0⟩
    S.WellFormed ∧ ∃ t ∈ S.tests, ¬ S.RecordedOnce t ∧ ∀ f, t.1 ∉ S.file f := by
  have hnone : ∀ f, "test_loop".toList ∉ (twoTests [] ⟨[], 139⟩ ⟨[], 0⟩).file f := by
    intro f
    cases f <;> decide +kernel
  refine ⟨wellFormed_twoTests _ _ _, ("test_loop".toList, ["test_loop.cxx".toList]), by decide +kernel, ?_, hnone⟩
  intro h
  have hcount := h.once
  simp only [List.count_append, List.count_eq_zero_of_not_mem (hnone _)] at hcount
  cases hcount

end Suite

end Aomp.Testing.LLNL
