import Mathlib.Algebra.Order.BigOperators.Group.List
import Mathlib.Algebra.Order.Ring.Nat
import Mathlib.Data.List.Induction
import Mathlib.Data.List.Nodup
import Aomp.Testing.SmokeRuns

/-!
# When the two smoke runs agree

A parallel run is determined but for what the jobs of failing checks find in `make-fail.txt`. One
inversion lemma says what a step of a job does; the runs that start with a chosen job show what
is needed, and an invariant that counts what every directory still owes shows that it is enough.
-/

namespace Aomp.Testing.Smoke

open Foundations

namespace Env

variable {env : Env} {dirs : List TestDir} {s s' : State} {d : TestDir}

theorem mem_lines {m : Made} {base : String} {l : Line} : l ∈ m.lines base ↔
    ∃ n, m.status = some n ∧ l = ⟨if n = 0 then .passing_tests else .failing_tests, base, ""⟩ := by
  rw [Made.lines]
  cases m.status <;> simp

theorem name_of_mem_lines {m : Made} {base : String} {l : Line} (h : l ∈ m.lines base) :
    l.name = base := by
  obtain ⟨n, -, rfl⟩ := mem_lines.mp h
  rfl

theorem name_of_mem_makeLines {l : Line} (h : l ∈ makeLines d) : l.name = d.base := by
  rw [makeLines] at h
  split_ifs at h
  · rw [List.mem_singleton.mp h]
    rfl
  · rw [List.mem_singleton.mp h]
  · simp at h

theorem name_of_mem_failure {p : Prop} [Decidable p] {line l : Line} (hline : line.name = d.base)
    (h : l ∈ if p then [line] else []) : l.name = d.base := by
  split_ifs at h
  · rw [List.mem_singleton.mp h, hline]
  · simp at h

theorem name_of_mem_checkLines {l : Line} (h : l ∈ checkLines d) : l.name = d.base := by
  rw [checkLines] at h
  cases hk : kind d.base with
  | visual =>
    simp only [hk] at h
    exact name_of_mem_lines h
  | verifyLog =>
    simp only [hk] at h
    exact name_of_mem_lines h
  | flags => simp [hk] at h
  | gpus => simp [hk] at h
  | liba =>
    simp only [hk, List.mem_append] at h
    obtain h | h := h
    · exact name_of_mem_lines h
    · exact name_of_mem_failure rfl h
  | other =>
    simp only [hk] at h
    exact name_of_mem_lines h

theorem status_made (r : CheckResult) : r.made.status = none ↔ r.made.rc ≠ 0 := by
  cases r <;> simp [CheckResult.made]

theorem exists_status {r : CheckResult} (h : r.made.rc = 0) : ∃ n, r.made.status = some n := by
  rw [← Option.ne_none_iff_exists', Ne, status_made]
  exact not_not.mpr h

theorem status_of_check (h : d.make_check.rc ≠ 0) : d.make_check.status = none := by
  rw [TestDir.make_check] at h ⊢
  split_ifs at h ⊢
  · rfl
  · exact (status_made _).mpr h
  · rfl

theorem status_of_verify (h : d.make_verify_log.rc ≠ 0) : d.make_verify_log.status = none := by
  rw [TestDir.make_verify_log] at h ⊢
  split_ifs at h ⊢
  · rfl
  · exact (status_made _).mpr h

theorem lines_of_status {m : Made} (h : m.status = none) (base : String) : m.lines base = [] := by
  rw [Made.lines, h]

theorem checkLines_of_rc (hk : kind d.base = .other) (h : d.make_check.rc ≠ 0) : checkLines d = [] := by
  simp only [checkLines, hk]
  exact lines_of_status (status_of_check h) _

theorem mytest_eq_false {files : List Line} (h : names .make_fail files = []) :
    env.mytest files d = false := by
  rw [mytest, List.any_eq_false]
  intro l hl
  rw [names, List.map_eq_nil_iff, List.filter_eq_nil_iff] at h
  have hfile := h l hl
  rw [decide_eq_true_eq] at hfile
  simp [hfile]

@[simp] theorem State.files_set (lines : List Line) (stage : Stage) :
    (s.set lines d stage).files = s.files ++ lines := rfl

@[simp] theorem State.stage_set_self (lines : List Line) (stage : Stage) :
    (s.set lines d stage).stage d = stage := Function.update_self ..

theorem State.stage_set_of_ne {e : TestDir} (hne : e ≠ d) (lines : List Line) (stage : Stage) :
    (s.set lines d stage).stage e = s.stage e := Function.update_of_ne hne ..

/-- Everything that a step can do. -/
theorem step_cases (h : env.step dirs s d = some s') : d ∈ dirs ∧
    (s.stage d = .make ∧ s' = s.set (makeLines d) d .check ∨
      s.stage d = .check ∧ (∀ e ∈ dirs, s.stage e ≠ .make) ∧
        (kind d.base = .other ∧ d.make_check.rc ≠ 0 ∧
            s' = s.set (checkLines d) d (.guard d.make_check.rc (env.mytest s.files d)) ∨
          ¬ (kind d.base = .other ∧ d.make_check.rc ≠ 0) ∧ s' = s.set (checkLines d) d .done) ∨
      ∃ rc mytest, s.stage d = .guard rc mytest ∧ s' = s.set
        (if names .make_fail s.files = [] ∨ mytest = false then [checkFailed d rc] else []) d .done) := by
  rw [step] at h
  obtain ⟨hmem, h⟩ := Option.ite_none_right_eq_some.mp h
  refine ⟨hmem, ?_⟩
  cases hstage : s.stage d with
  | make =>
    simp only [hstage, Option.some.injEq] at h
    exact .inl ⟨rfl, h.symm⟩
  | check =>
    simp only [hstage] at h
    obtain ⟨hall, h⟩ := Option.ite_none_right_eq_some.mp h
    rw [List.all_eq_true] at hall
    refine .inr (.inl ⟨rfl, fun e he => by simpa using hall e he, ?_⟩)
    split_ifs at h with hother
    · exact .inl ⟨hother.1, hother.2, (Option.some.inj h).symm⟩
    · exact .inr ⟨hother, (Option.some.inj h).symm⟩
  | guard rc mytest =>
    simp only [hstage, Option.some.injEq] at h
    exact .inr (.inr ⟨rc, mytest, rfl, h.symm⟩)
  | done => simp [hstage] at h

theorem step_append (h : env.step dirs s d = some s') : s.stage d ≠ .done ∧
    ∃ lines stage, s' = s.set lines d stage ∧ ∀ l ∈ lines, l.name = d.base := by
  obtain ⟨-, ⟨hstage, rfl⟩ | ⟨hstage, -, ⟨-, -, rfl⟩ | ⟨-, rfl⟩⟩ | ⟨rc, mytest, hstage, rfl⟩⟩ :=
    step_cases h
  · exact ⟨by simp [hstage], _, _, rfl, fun _ => name_of_mem_makeLines⟩
  · exact ⟨by simp [hstage], _, _, rfl, fun _ => name_of_mem_checkLines⟩
  · exact ⟨by simp [hstage], _, _, rfl, fun _ => name_of_mem_checkLines⟩
  · exact ⟨by simp [hstage], _, _, rfl, fun _ => name_of_mem_failure rfl⟩

theorem Reaches.tail (h : env.Reaches dirs s s') {t : State}
    (hstep : env.step (env.parallelDirs dirs) s' d = some t) :
    env.Reaches dirs s t := Reachable.tail h trivial hstep

theorem Reaches.count_of_done (h : env.Reaches dirs s s') (hinj : ∀ e ∈ dirs, e.base = d.base → e = d)
    (hdone : s.stage d = .done) : s'.stage d = .done ∧
      (s'.files.map (·.name)).count d.base = (s.files.map (·.name)).count d.base := by
  apply Reachable.invariant h ⟨hdone, rfl⟩
  rintro s₁ e s₂ ⟨hstage, hcount⟩ - hstep
  obtain ⟨hlive, lines, stage, rfl, hnames⟩ := step_append hstep
  have hne : e ≠ d := by
    rintro rfl
    exact hlive hstage
  have hzero : (lines.map (·.name)).count d.base = 0 := by
    rw [List.count_eq_zero]
    intro hmem
    obtain ⟨l, hl, hbase⟩ := List.mem_map.mp hmem
    have he : e ∈ dirs := List.mem_of_mem_filter (step_cases hstep).1
    exact hne (hinj e he ((hnames l hl).symm.trans hbase))
  constructor
  · rw [State.stage_set_of_ne (Ne.symm hne), hstage]
  · rw [State.files_set, List.map_append, List.count_append, hzero, hcount, Nat.add_zero]

def Stage.weight : Stage → ℕ
  | .make => 3
  | .check => 2
  | .guard _ _ => 1
  | .done => 0

theorem weight_lt {D : List TestDir} (hstep : env.step D s d = some s') :
    (D.map fun e => (s'.stage e).weight).sum < (D.map fun e => (s.stage e).weight).sum := by
  have hlt : (s'.stage d).weight < (s.stage d).weight := by
    obtain ⟨-, ⟨hstage, rfl⟩ | ⟨hstage, -, ⟨-, -, rfl⟩ | ⟨-, rfl⟩⟩ | ⟨rc, mytest, hstage, rfl⟩⟩ :=
      step_cases hstep
    all_goals simp [hstage, Stage.weight]
  have hle (e : TestDir) : (s'.stage e).weight ≤ (s.stage e).weight := by
    by_cases hne : e = d
    · rw [hne]
      exact hlt.le
    · obtain ⟨-, lines, stage, rfl, -⟩ := step_append hstep
      rw [State.stage_set_of_ne hne]
  exact List.sum_lt_sum _ _ (fun e _ => hle e) ⟨d, (step_cases hstep).1, hlt⟩

theorem done_of_stuck {D : List TestDir} (h : Stuck (env.step D) s) : ∀ d ∈ D, s.stage d = .done := by
  have hmade : ∀ e ∈ D, s.stage e ≠ .make := by
    intro e he hstage
    have hstuck := h e
    simp [step, he, hstage] at hstuck
  intro d hd
  have hall : D.all (s.stage · ≠ .make) = true := by simpa using hmade
  have hstuck := h d
  rw [step, if_pos hd] at hstuck
  cases hstage : s.stage d with
  | make => exact absurd hstage (hmade d hd)
  | check =>
    simp only [hstage, hall, if_true] at hstuck
    split_ifs at hstuck
  | guard rc mytest => simp [hstage] at hstuck
  | done => rfl

theorem exists_parallel (h : env.Reaches dirs start s) :
    ∃ t, env.Reaches dirs s t ∧ env.Parallel dirs t.files := by
  obtain ⟨t, ht, hstuck⟩ := Reachable.exists_stuck (P := fun _ => True)
    (fun s : State => ((env.parallelDirs dirs).map fun e => (s.stage e).weight).sum)
    (fun _ _ => trivial) (fun _ _ _ _ hstep => ⟨trivial, weight_lt hstep⟩) (s := s) trivial
  exact ⟨t, ht, t, Reachable.trans h ht, done_of_stuck hstuck, rfl⟩

theorem reaches_made (env : Env) (hnodup : dirs.Nodup) : ∃ s, env.Reaches dirs start s ∧
    s.files = (env.parallelDirs dirs).flatMap makeLines ∧ ∀ d ∈ env.parallelDirs dirs, s.stage d = .check := by
  have hsome (l : List TestDir) (hl : l.Nodup) (hsub : l ⊆ env.parallelDirs dirs) :
      ∃ s, env.Reaches dirs start s ∧ s.files = l.flatMap makeLines ∧
        ∀ d, s.stage d = if d ∈ l then .check else .make := by
    induction l using List.reverseRecOn with
    | nil => exact ⟨start, .refl, rfl, fun d => rfl⟩
    | append_singleton l e ih =>
      rw [List.nodup_append] at hl
      obtain ⟨s, hs, hfiles, hstage⟩ := ih hl.1 fun d hd => hsub (List.mem_append_left _ hd)
      have he : e ∉ l := fun hmem => hl.2.2 e hmem e (List.mem_singleton_self e) rfl
      have hin : e ∈ env.parallelDirs dirs := hsub (List.mem_append_right _ (List.mem_singleton_self e))
      have hstep : env.step (env.parallelDirs dirs) s e = some (s.set (makeLines e) e .check) := by
        simp [step, hin, hstage, he]
      refine ⟨_, hs.tail hstep, by simp [hfiles], ?_⟩
      intro d
      by_cases hd : d = e
      · simp [hd]
      · rw [State.stage_set_of_ne hd, hstage]
        simp [hd]
  obtain ⟨s, hs, hfiles, hstage⟩ := hsome (env.parallelDirs dirs) (hnodup.filter _) (List.Subset.refl _)
  exact ⟨s, hs, hfiles, fun d hd => by rw [hstage, if_pos hd]⟩

def jobLines (env : Env) (files : List Line) (d : TestDir) : List Line :=
  checkLines d ++
    if kind d.base = .other ∧ d.make_check.rc ≠ 0 ∧ env.mytest files d = false then
      [checkFailed d d.make_check.rc]
    else []

theorem reaches_job (hd : d ∈ env.parallelDirs dirs)
    (hmade : ∀ e ∈ env.parallelDirs dirs, s.stage e ≠ .make)
    (hstage : s.stage d = .check) :
    ∃ t, env.Reaches dirs s t ∧ t.files = s.files ++ env.jobLines s.files d ∧ t.stage d = .done ∧
      ∀ e, e ≠ d → t.stage e = s.stage e := by
  have hall : (env.parallelDirs dirs).all (s.stage · ≠ .make) = true := by simpa using hmade
  by_cases hother : kind d.base = .other ∧ d.make_check.rc ≠ 0
  · have hfirst : env.step (env.parallelDirs dirs) s d =
        some (s.set (checkLines d) d (.guard d.make_check.rc (env.mytest s.files d))) := by
      simp only [step, hd, hstage, hall, hother, if_true, and_self, ne_eq, not_false_eq_true]
    have hnone : checkLines d = [] := checkLines_of_rc hother.1 hother.2
    rw [hnone] at hfirst
    generalize hs₁ : s.set [] d (.guard d.make_check.rc (env.mytest s.files d)) = s₁ at hfirst
    have hfiles : s₁.files = s.files := by
      rw [← hs₁, State.files_set, List.append_nil]
    have hguard : s₁.stage d = .guard d.make_check.rc (env.mytest s.files d) := by
      rw [← hs₁, State.stage_set_self]
    have hsecond : env.step (env.parallelDirs dirs) s₁ d = some (s₁.set
        (if names .make_fail s.files = [] ∨ env.mytest s.files d = false then
          [checkFailed d d.make_check.rc] else []) d .done) := by
      simp only [step, hd, hguard, hfiles, if_true]
    refine ⟨_, (Reaches.tail .refl hfirst).tail hsecond, ?_, by simp, ?_⟩
    · have hiff : (names .make_fail s.files = [] ∨ env.mytest s.files d = false) ↔
          (kind d.base = .other ∧ d.make_check.rc ≠ 0 ∧ env.mytest s.files d = false) :=
        ⟨fun h => ⟨hother.1, hother.2, h.elim mytest_eq_false id⟩, fun h => .inr h.2.2⟩
      rw [State.files_set, hfiles, jobLines, hnone, List.nil_append]
      simp only [hiff]
    · intro e he
      rw [State.stage_set_of_ne he, ← hs₁, State.stage_set_of_ne he]
  · have hstep : env.step (env.parallelDirs dirs) s d = some (s.set (checkLines d) d .done) := by
      simp only [step, hd, hstage, hall, hother, if_true, if_false]
    refine ⟨_, Reaches.tail .refl hstep, ?_, by simp, fun e he => State.stage_set_of_ne he _ _⟩
    have hnot : ¬ (kind d.base = .other ∧ d.make_check.rc ≠ 0 ∧ env.mytest s.files d = false) :=
      fun h => hother ⟨h.1, h.2.1⟩
    rw [jobLines, if_neg hnot, List.append_nil, State.files_set]

end Env

variable {env : Env} {dirs : List TestDir} {files : List Line} {d : TestDir} {s : Env.State}

theorem length_names (files : List Line) :
    (names .passing_tests files).length + (names .make_fail files).length +
      (names .failing_tests files).length = files.length := by
  simp only [names, List.length_map]
  induction files with
  | nil => rfl
  | cons l files ih =>
    obtain ⟨f, name, rest⟩ := l
    cases f <;> simp only [List.filter_cons, decide_true, reduceCtorEq, decide_false, if_true,
      Bool.false_eq_true, if_false, List.length_cons] <;> omega

theorem gatherdata_eq (files : List Line) :
    gatherdata files = if files = [] then none else some files.length := by
  have hlength := length_names files
  have hnil : files = [] ↔ files.length = 0 := List.length_eq_zero_iff.symm
  simp only [hnil, ← hlength, gatherdata]
  generalize (names .passing_tests files).length = p
  generalize (names .make_fail files).length = m
  generalize (names .failing_tests files).length = f
  rcases p with - | p <;> rcases m with - | m <;> rcases f with - | f <;> simp

theorem mem_names {f : File} {name : String} :
    name ∈ names f files ↔ (f, name) ∈ files.map fun l => (l.file, l.name) := by
  simp [names, and_assoc]

/-- Where a due directory belongs. -/
def TestDir.expected (d : TestDir) : File :=
  if d.make ≠ 0 ∨ d.target.rc ≠ 0 then .make_fail
  else if d.target.status = some 0 then .passing_tests
  else .failing_tests

theorem rc_of_status {n : ℕ} (h : d.target.status = some n) : d.make = 0 ∧ d.target.rc = 0 := by
  have hmake : d.builds = true := by
    by_contra hbuilds
    rw [Bool.not_eq_true] at hbuilds
    rw [TestDir.target] at h
    cases hk : kind d.base <;> simp [hk, TestDir.make_check, TestDir.make_verify_log, hbuilds] at h
  refine ⟨by simp [TestDir.make, hmake], ?_⟩
  by_contra hrc
  rw [TestDir.target] at h hrc
  cases hk : kind d.base with
  | verifyLog =>
    simp only [hk] at h hrc
    simp [Env.status_of_verify hrc] at h
  | gpus => simp [hk, TestDir.make, hmake] at hrc
  | flags => simp [hk] at h
  | visual =>
    simp only [hk] at h hrc
    simp [Env.status_of_check hrc] at h
  | liba =>
    simp only [hk] at h hrc
    simp [Env.status_of_check hrc] at h
  | other =>
    simp only [hk] at h hrc
    simp [Env.status_of_check hrc] at h

theorem reported_of_perm (hbase : (dirs.map (·.base)).Nodup) (hdue : ∃ d ∈ dirs, env.due d = true)
    (h : (files.map fun l => (l.file, l.name)).Perm
      ((dirs.filter env.due).map fun d => (d.expected, d.base))) : Reported env dirs files := by
  have hnames : (files.map (·.name)).Perm ((dirs.filter env.due).map (·.base)) := by
    have hsnd := h.map Prod.snd
    simpa [List.map_map, Function.comp_def] using hsnd
  have hmem {d : TestDir} {f : File} (hd : d ∈ dirs) (hdd : env.due d = true) :
      d.base ∈ names f files ↔ d.expected = f := by
    rw [mem_names, h.mem_iff, List.mem_map]
    constructor
    · rintro ⟨e, he, heq⟩
      rw [Prod.mk.injEq] at heq
      have hed : e = d := List.inj_on_of_nodup_map hbase (List.mem_of_mem_filter he) hd heq.2
      rw [← hed, heq.1]
    · rintro rfl
      exact ⟨d, List.mem_filter.mpr ⟨hd, hdd⟩, rfl⟩
  constructor
  · intro d hd hdd
    rw [hnames.count_eq]
    have hnodup : ((dirs.filter env.due).map (·.base)).Nodup := hbase.sublist (List.filter_sublist.map _)
    rw [hnodup.count, if_pos (List.mem_map.mpr ⟨d, List.mem_filter.mpr ⟨hd, hdd⟩, rfl⟩)]
  · intro d hd hdd
    rw [hmem hd hdd, TestDir.expected]
    split_ifs <;> simp_all
  · intro d hd hdd
    rw [hmem hd hdd, TestDir.expected]
    split_ifs with hfail hpass
    · constructor
      · simp
      · intro hstatus
        obtain ⟨hmake, hrc⟩ := rc_of_status hstatus
        omega
    · simpa using hpass
    · simpa using hpass
  · have hlength : files.length = dirs.countP env.due := by
      have hmap := hnames.length_eq
      rwa [List.length_map, List.length_map, ← List.countP_eq_length_filter] at hmap
    have hpos : 0 < dirs.countP env.due := List.countP_pos_iff.mpr hdue
    have hne : files ≠ [] := by
      rintro rfl
      simp at hlength
      omega
    rw [gatherdata_eq, if_neg hne, hlength]

/-- With one line for each due directory and no more than their number, the names are theirs. -/
theorem Reported.names_perm (h : Reported env dirs files) (hbase : (dirs.map (·.base)).Nodup) :
    (files.map (·.name)).Perm ((dirs.filter env.due).map (·.base)) := by
  have hnumber := h.number
  rw [gatherdata_eq] at hnumber
  obtain ⟨-, hlength⟩ := Option.ite_none_left_eq_some.mp hnumber
  have hsub : (dirs.filter env.due).map (·.base) ⊆ files.map (·.name) := by
    intro name hname
    obtain ⟨d, hd, rfl⟩ := List.mem_map.mp hname
    rw [List.mem_filter] at hd
    rw [← List.count_pos_iff, h.once d hd.1 hd.2]
    exact Nat.one_pos
  have hsubperm := List.subperm_of_subset (hbase.sublist (List.filter_sublist.map _)) hsub
  apply (hsubperm.perm_of_length_le _).symm
  rw [List.length_map, List.length_map, ← List.countP_eq_length_filter]
  exact (Option.some.inj hlength).le

theorem Reported.not_mem (h : Reported env dirs files) (hbase : (dirs.map (·.base)).Nodup)
    (hd : d ∈ dirs)
    (hdue : env.due d = false) : d.base ∉ files.map (·.name) := by
  rw [(h.names_perm hbase).mem_iff, List.mem_map]
  rintro ⟨e, he, heq⟩
  rw [List.mem_filter] at he
  rw [List.inj_on_of_nodup_map hbase he.1 hd heq, hdue] at he
  exact absurd he.2 (by simp)

def suppressed (env : Env) (dirs : List TestDir) (d : TestDir) : Bool :=
  (env.parallelDirs dirs).any fun e => e.make ≠ 0 && env.grep (d.base ++ ":") (makeFailed e.base).text

/-- What the job of a failing check may append to `make-fail.txt`. -/
def failures (e : TestDir) : List Line :=
  if e.target.rc = 0 then []
  else match kind e.base with
    | .liba => [makeFailed e.base]
    | .other => [Env.checkFailed e e.target.rc]
    | _ => []

/-- The directory leaves no line in either mode, although the parallel loop runs it: it builds, and
its check reports no status and no failure. -/
structure Idle (env : Env) (dirs : List TestDir) (d : TestDir) : Prop where
  make : d.make = 0
  gpus : kind d.base ≠ .gpus
  status : d.target.status = none
  failure : d.target.rc = 0 ∨ kind d.base = .visual ∨ kind d.base = .verifyLog ∨
    kind d.base = .other ∧ suppressed env dirs d = true

/-- When the two modes agree and report every due directory once. -/
structure Consistent (env : Env) (dirs : List TestDir) : Prop where
  due : ∃ d ∈ dirs, env.due d = true
  flags : ∀ d ∈ dirs, env.due d = true → d.make = 0 → kind d.base ≠ .flags
  unreported : ∀ d ∈ dirs, env.due d = true → kind d.base = .visual ∨ kind d.base = .verifyLog →
    d.make = 0 → d.target.rc = 0
  liba : ∀ d ∈ dirs, env.due d = true → kind d.base = .liba → d.make = 0
  rebuilt : ∀ d ∈ dirs, env.due d = true → kind d.base = .other → d.make ≠ 0 →
    suppressed env dirs d = true
  checked : ∀ d ∈ dirs, env.due d = true → kind d.base = .other → d.make = 0 → d.target.rc ≠ 0 →
    suppressed env dirs d = false ∧ ∀ e ∈ dirs, e ≠ d → env.due e = true → e.make = 0 →
      ∀ l ∈ failures e, env.grep (d.base ++ ":") l.text = false
  idle : ∀ d ∈ env.parallelDirs dirs, env.due d = false → Idle env dirs d

def jobFinal (env : Env) (dirs : List TestDir) (d : TestDir) : List Line :=
  Env.checkLines d ++
    if kind d.base = .other ∧ d.make_check.rc ≠ 0 ∧ suppressed env dirs d = false then
      [Env.checkFailed d d.make_check.rc]
    else []

theorem target_of_kind (h : kind d.base = .visual ∨ kind d.base = .liba ∨ kind d.base = .other) :
    d.target = d.make_check := by
  rw [TestDir.target]
  rcases h with h | h | h <;> simp [h]

theorem builds_iff : d.builds = true ↔ d.make = 0 := by
  rw [TestDir.make]
  cases d.builds <;> simp

theorem make_check_of_make (h : d.make ≠ 0) : d.make_check = ⟨none, 2⟩ := by
  rw [Ne, ← builds_iff] at h
  simp [TestDir.make_check, h]

theorem make_verify_log_of_make (h : d.make ≠ 0) : d.make_verify_log = ⟨none, 2⟩ := by
  rw [Ne, ← builds_iff] at h
  simp [TestDir.make_verify_log, h]

theorem status_of_rc (hmake : d.make = 0) (hsupported : d.supported = true) (hrc : d.make_check.rc = 0) :
    ∃ n, d.make_check.status = some n := by
  rw [← builds_iff] at hmake
  simp only [TestDir.make_check, hmake, hsupported, Bool.not_true, Bool.false_eq_true, if_false, if_true]
    at hrc ⊢
  exact Env.exists_status hrc

theorem verify_status_of_rc (hmake : d.make = 0) (hrc : d.make_verify_log.rc = 0) :
    ∃ n, d.make_verify_log.status = some n := by
  rw [← builds_iff] at hmake
  simp only [TestDir.make_verify_log, hmake, Bool.not_true, Bool.false_eq_true, if_false] at hrc ⊢
  exact Env.exists_status hrc

theorem lines_expected {n : ℕ} (hstatus : d.target.status = some n) :
    (d.target.lines d.base).map (fun l => (l.file, l.name)) = [(d.expected, d.base)] := by
  obtain ⟨hmake, hrc⟩ := rc_of_status hstatus
  simp [Made.lines, TestDir.expected, hstatus, hmake, hrc]

theorem expected_of_failure (h : d.make ≠ 0 ∨ d.target.rc ≠ 0) : d.expected = .make_fail := if_pos h

theorem status_of_target (hdue : env.due d = true) (hmake : d.make = 0) (hrc : d.target.rc = 0)
    (hflags : kind d.base ≠ .flags) : ∃ n, d.target.status = some n := by
  have hsupported : d.supported = true := by
    rw [Env.due, Bool.and_eq_true] at hdue
    exact hdue.2
  rw [TestDir.target] at hrc ⊢
  cases hk : kind d.base with
  | flags => exact absurd hk hflags
  | gpus => exact ⟨0, by simp [builds_iff.mpr hmake]⟩
  | verifyLog =>
    simp only [hk] at hrc
    exact verify_status_of_rc hmake hrc
  | _ =>
    simp only [hk] at hrc
    exact status_of_rc hmake hsupported hrc

def builtLines (failure : List Line) (d : TestDir) : List Line :=
  match kind d.base with
  | .visual | .verifyLog => d.target.lines d.base
  | .flags => []
  | .gpus => [⟨.passing_tests, d.base, ""⟩]
  | .liba => d.target.lines d.base ++ if d.target.rc ≠ 0 then [makeFailed d.base] else []
  | .other => d.target.lines d.base ++ if d.target.rc ≠ 0 then failure else []

theorem builtLines_due (h : Consistent env dirs) (hd : d ∈ dirs) (hdue : env.due d = true)
    (hmake : d.make = 0)
    {line : Line} (hline : (line.file, line.name) = (.make_fail, d.base)) :
    (builtLines [line] d).map (fun l => (l.file, l.name)) = [(d.expected, d.base)] := by
  by_cases hrc : d.target.rc = 0
  · obtain ⟨n, hn⟩ := status_of_target hdue hmake hrc (h.flags d hd hdue hmake)
    have hlines := lines_expected hn
    rw [builtLines]
    cases hk : kind d.base with
    | flags => exact absurd hk (h.flags d hd hdue hmake)
    | gpus => simp [TestDir.expected, TestDir.target, hk, hmake, builds_iff.mpr hmake]
    | _ => simpa [hrc] using hlines
  · rw [expected_of_failure (.inr hrc), builtLines]
    have hnone : d.target.status = none := by
      by_contra hsome
      obtain ⟨n, hn⟩ := Option.ne_none_iff_exists'.mp hsome
      exact hrc (rc_of_status hn).2
    have hlines := Env.lines_of_status hnone d.base
    cases hk : kind d.base with
    | flags => exact absurd hk (h.flags d hd hdue hmake)
    | gpus => simp [TestDir.target, hk, hmake] at hrc
    | visual => exact absurd (h.unreported d hd hdue (.inl hk) hmake) hrc
    | verifyLog => exact absurd (h.unreported d hd hdue (.inr hk) hmake) hrc
    | liba => simp [hlines, hrc, makeFailed]
    | other => simpa [hlines, hrc] using hline

theorem jobFinal_of_make (hmake : d.make = 0) : Env.makeLines d ++ jobFinal env dirs d =
    builtLines (if suppressed env dirs d = false then [Env.checkFailed d d.target.rc] else []) d := by
  rw [builtLines]
  cases hk : kind d.base <;>
    simp [Env.makeLines, jobFinal, Env.checkLines, TestDir.target, hk, hmake, ite_and]

theorem jobFinal_of_make_ne (h : Consistent env dirs) (hd : d ∈ dirs) (hdue : env.due d = true)
    (hmake : d.make ≠ 0) : Env.makeLines d ++ jobFinal env dirs d = [makeFailed d.base] := by
  have hcheck := make_check_of_make hmake
  have hverify := make_verify_log_of_make hmake
  cases hk : kind d.base with
  | liba => exact absurd (h.liba d hd hdue hk) hmake
  | other =>
    have hsuppressed := h.rebuilt d hd hdue hk hmake
    simp [Env.makeLines, jobFinal, Env.checkLines, hk, hmake, hcheck, Made.lines, hsuppressed]
  | _ => simp [Env.makeLines, jobFinal, Env.checkLines, hk, hmake, hcheck, hverify, Made.lines]

/-- The lines of a directory that is run in parallel. -/
theorem parallel_lines (h : Consistent env dirs) (hd : d ∈ env.parallelDirs dirs) :
    (Env.makeLines d ++ jobFinal env dirs d).map (fun l => (l.file, l.name)) =
      if env.due d = true then [(d.expected, d.base)] else [] := by
  have hmem : d ∈ dirs := List.mem_of_mem_filter hd
  by_cases hdue : env.due d = true
  · rw [if_pos hdue]
    by_cases hmake : d.make = 0
    · have hbuilt : (builtLines [Env.checkFailed d d.target.rc] d).map (fun l => (l.file, l.name)) =
          [(d.expected, d.base)] := builtLines_due h hmem hdue hmake rfl
      rw [jobFinal_of_make hmake, ← hbuilt]
      by_cases hother : kind d.base = .other ∧ d.target.rc ≠ 0
      · rw [if_pos (h.checked d hmem hdue hother.1 hmake hother.2).1]
      · rw [builtLines, builtLines]
        cases hk : kind d.base <;> simp_all
    · rw [jobFinal_of_make_ne h hmem hdue hmake, expected_of_failure (.inl hmake)]
      rfl
  · rw [if_neg hdue]
    obtain ⟨hmake, hgpus, hstatus, hfailure⟩ := h.idle d hd (by simpa using hdue)
    have hlines := Env.lines_of_status hstatus d.base
    rw [jobFinal_of_make hmake, builtLines]
    cases hk : kind d.base with
    | gpus => exact absurd hk hgpus
    | flags => rfl
    | other =>
      by_cases hrc : d.target.rc = 0
      · simp [hlines, hrc]
      · simp_all
    | _ => simp_all

theorem sequentialDir_of_make (hskip : d.base ∉ env.skip_tests)
    (hrocblas : ¬ env.rocblasMissing d = true)
    (hmake : d.make = 0) : env.sequentialDir d =
      builtLines [⟨.make_fail, d.base, " 'make check' failed: " ++ toString d.make_check.rc⟩] d := by
  rw [Env.sequentialDir, if_neg hskip, if_neg hrocblas, if_neg (not_not.mpr hmake), builtLines]
  cases hk : kind d.base <;> simp [TestDir.target, hk]

theorem make_check_of_unsupported (hmake : d.make = 0) (hsupported : d.supported = false) :
    d.make_check = ⟨none, 0⟩ := by
  simp [TestDir.make_check, builds_iff.mpr hmake, hsupported]

theorem sequential_lines (h : Consistent env dirs) (hd : d ∈ dirs) :
    (env.sequentialDir d).map (fun l => (l.file, l.name)) =
      if env.due d = true then [(d.expected, d.base)] else [] := by
  by_cases hskip : d.base ∈ env.skip_tests
  · simp [Env.sequentialDir, hskip, Env.due]
  by_cases hrocblas : env.rocblasMissing d = true
  · simp [Env.sequentialDir, hskip, hrocblas, Env.due]
  by_cases hdue : env.due d = true
  · rw [if_pos hdue]
    by_cases hmake : d.make = 0
    · rw [sequentialDir_of_make hskip hrocblas hmake]
      exact builtLines_due h hd hdue hmake rfl
    · rw [Env.sequentialDir, if_neg hskip, if_neg hrocblas, if_pos hmake,
        expected_of_failure (.inl hmake)]
      rfl
  · have hsupported : d.supported = false := by simpa [Env.due, hskip, hrocblas] using hdue
    have hd' : d ∈ env.parallelDirs dirs := List.mem_filter.mpr ⟨hd, by simpa using hrocblas⟩
    obtain ⟨hmake, hgpus, hstatus, -⟩ := h.idle d hd' (by simpa using hdue)
    have hlines := Env.lines_of_status hstatus d.base
    have hcheck := make_check_of_unsupported hmake hsupported
    rw [if_neg hdue, sequentialDir_of_make hskip hrocblas hmake, builtLines]
    cases hk : kind d.base with
    | gpus => exact absurd hk hgpus
    | flags => rfl
    | liba => simp [TestDir.target, hk, hcheck, Made.lines]
    | other => simp [TestDir.target, hk, hcheck, Made.lines]
    | _ => simp [hlines]

def owed (env : Env) (dirs : List TestDir) (d : TestDir) : Env.Stage → List Line
  | .make => Env.makeLines d ++ jobFinal env dirs d
  | .check => jobFinal env dirs d
  | .guard rc mytest => if mytest = false then [Env.checkFailed d rc] else []
  | .done => []

/-- What holds while the jobs run: nothing is lost or added, every line has an owner, and what a
job has found is what it finds at any time. -/
structure Paid (env : Env) (dirs : List TestDir) (s : Env.State) : Prop where
  perm : (s.files ++ (env.parallelDirs dirs).flatMap fun d => owed env dirs d (s.stage d)).Perm
    ((env.parallelDirs dirs).flatMap fun d => Env.makeLines d ++ jobFinal env dirs d)
  made : ∀ d ∈ env.parallelDirs dirs, s.stage d ≠ .make → ∀ l ∈ Env.makeLines d, l ∈ s.files
  owner : ∀ l ∈ s.files, (∃ d ∈ env.parallelDirs dirs, l ∈ Env.makeLines d) ∨
    ∃ d ∈ env.parallelDirs dirs, s.stage d = .done ∧ l ∈ jobFinal env dirs d
  barrier : ∀ d ∈ env.parallelDirs dirs, s.stage d ≠ .make → s.stage d ≠ .check →
    ∀ e ∈ env.parallelDirs dirs, s.stage e ≠ .make
  guard : ∀ d ∈ env.parallelDirs dirs, ∀ rc mytest, s.stage d = .guard rc mytest →
    kind d.base = .other ∧ d.make_check.rc ≠ 0 ∧ rc = d.make_check.rc ∧ mytest = suppressed env dirs d

theorem paid_start : Paid env dirs Env.start := by
  constructor
  · simp [Env.start, owed]
  · intro d _ hstage
    exact absurd rfl hstage
  · simp [Env.start]
  · intro d _ hstage
    exact absurd rfl hstage
  · intro d _ rc mytest hstage
    cases hstage

/-- What a directory appends is taken off what it owes. -/
theorem perm_set (hnodup : dirs.Nodup) (hd : d ∈ env.parallelDirs dirs) {s : Env.State}
    {lines : List Line}
    {stage : Env.Stage} (hpay : owed env dirs d (s.stage d) = lines ++ owed env dirs d stage) :
    ((s.set lines d stage).files ++
      (env.parallelDirs dirs).flatMap fun e => owed env dirs e ((s.set lines d stage).stage e)).Perm
    (s.files ++ (env.parallelDirs dirs).flatMap fun e => owed env dirs e (s.stage e)) := by
  have hsplit := List.perm_cons_erase hd
  have hrest : ((env.parallelDirs dirs).erase d).flatMap
      (fun e => owed env dirs e ((s.set lines d stage).stage e)) =
      ((env.parallelDirs dirs).erase d).flatMap fun e => owed env dirs e (s.stage e) := by
    apply List.flatMap_congr
    intro e he
    have hne : e ≠ d := ((hnodup.filter _).mem_erase_iff.mp he).1
    rw [Env.State.stage_set_of_ne hne]
  have hbefore := hsplit.flatMap_right fun e => owed env dirs e (s.stage e)
  have hafter := hsplit.flatMap_right fun e => owed env dirs e ((s.set lines d stage).stage e)
  rw [List.flatMap_cons, Env.State.stage_set_self, hrest] at hafter
  rw [List.flatMap_cons, hpay, List.append_assoc] at hbefore
  rw [Env.State.files_set, List.append_assoc]
  exact ((hafter.append_left lines).trans hbefore.symm).append_left s.files

theorem file_of_mem_lines {m : Made} {base : String} {l : Line} (h : l ∈ m.lines base) :
    l.file ≠ .make_fail := by
  obtain ⟨n, -, rfl⟩ := Env.mem_lines.mp h
  dsimp only
  split_ifs <;> simp

/-- Only a due directory that builds appends a failure when it is checked. -/
theorem failures_of_jobFinal (hc : Consistent env dirs) {e : TestDir} (he : e ∈ env.parallelDirs dirs)
    {l : Line} (hl : l ∈ jobFinal env dirs e) (hfile : l.file = .make_fail) :
    env.due e = true ∧ e.make = 0 ∧ l ∈ failures e := by
  have hall : l ∈ Env.makeLines e ++ jobFinal env dirs e := List.mem_append_right _ hl
  have hdue : env.due e = true := by
    by_contra hdue
    have hlines := parallel_lines hc he
    rw [if_neg hdue, List.map_eq_nil_iff] at hlines
    rw [hlines] at hall
    simp at hall
  have hmake : e.make = 0 := by
    by_contra hmake
    have hlines := jobFinal_of_make_ne hc (List.mem_of_mem_filter he) hdue hmake
    rw [Env.makeLines, if_pos hmake] at hlines
    have hnil : jobFinal env dirs e = [] := by simpa using hlines
    rw [hnil] at hl
    simp at hl
  refine ⟨hdue, hmake, ?_⟩
  rw [jobFinal_of_make hmake, builtLines] at hall
  rw [failures]
  cases hk : kind e.base with
  | visual => exact absurd hfile (file_of_mem_lines (by simpa [hk] using hall))
  | verifyLog => exact absurd hfile (file_of_mem_lines (by simpa [hk] using hall))
  | flags => simp [hk] at hall
  | gpus =>
    simp only [hk, List.mem_singleton] at hall
    simp [hall] at hfile
  | liba =>
    simp only [hk, List.mem_append] at hall
    obtain hmem | hmem := hall
    · exact absurd hfile (file_of_mem_lines hmem)
    · by_cases hrc : e.target.rc = 0
      · simp [hrc] at hmem
      · simpa [hrc] using hmem
  | other =>
    simp only [hk, List.mem_append] at hall
    obtain hmem | hmem := hall
    · exact absurd hfile (file_of_mem_lines hmem)
    · by_cases hrc : e.target.rc = 0
      · simp [hrc] at hmem
      · rw [if_pos hrc] at hmem
        split_ifs at hmem
        · simpa [hrc] using hmem
        · simp at hmem

/-- The failed build that a directory greps has its line once everything is made. -/
theorem Paid.exists_makeFailed (hp : Paid env dirs s)
    (hmade : ∀ e ∈ env.parallelDirs dirs, s.stage e ≠ .make)
    (hsuppressed : suppressed env dirs d = true) : ∃ l ∈ s.files, l.file = .make_fail ∧
      env.grep (d.base ++ ":") l.text = true := by
  rw [suppressed, List.any_eq_true] at hsuppressed
  obtain ⟨e, he, hgrep⟩ := hsuppressed
  rw [Bool.and_eq_true, decide_eq_true_eq] at hgrep
  have hline : makeFailed e.base ∈ Env.makeLines e := by
    rw [Env.makeLines, if_pos hgrep.1]
    exact List.mem_singleton_self _
  exact ⟨makeFailed e.base, hp.made e he (hmade e he) _ hline, rfl, hgrep.2⟩

/-- The grep of a job finds what it would find at the end of the builds. -/
theorem Paid.mytest (hp : Paid env dirs s) (hc : Consistent env dirs) (hd : d ∈ env.parallelDirs dirs)
    (hstage : s.stage d = .check) (hmade : ∀ e ∈ env.parallelDirs dirs, s.stage e ≠ .make)
    (hk : kind d.base = .other) (hrc : d.make_check.rc ≠ 0) :
    env.mytest s.files d = suppressed env dirs d := by
  have htarget : d.target = d.make_check := target_of_kind (.inr (.inr hk))
  cases hsuppressed : suppressed env dirs d with
  | true =>
    obtain ⟨l, hl, hfile, hgrep⟩ := hp.exists_makeFailed hmade hsuppressed
    rw [Env.mytest, List.any_eq_true]
    exact ⟨l, hl, by simp [hfile, hgrep]⟩
  | false =>
    have hmem : d ∈ dirs := List.mem_of_mem_filter hd
    have hdue : env.due d = true := by
      by_contra hdue
      obtain hzero | hkind | hkind | ⟨-, htrue⟩ := (hc.idle d hd (by simpa using hdue)).failure
      · exact hrc (htarget ▸ hzero)
      · simp [hk] at hkind
      · simp [hk] at hkind
      · simp [hsuppressed] at htrue
    have hmake : d.make = 0 := by
      by_contra hmake
      simp [hc.rebuilt d hmem hdue hk hmake] at hsuppressed
    have hchecked := (hc.checked d hmem hdue hk hmake (htarget ▸ hrc)).2
    rw [Env.mytest, List.any_eq_false]
    intro l hl htrue
    rw [Bool.and_eq_true, decide_eq_true_eq] at htrue
    obtain ⟨hfile, hgrep⟩ := htrue
    obtain ⟨e, he, hline⟩ | ⟨e, he, hdone, hline⟩ := hp.owner l hl
    · rw [Env.makeLines] at hline
      split_ifs at hline with hne hgpus
      · rw [List.mem_singleton.mp hline] at hgrep
        rw [suppressed, List.any_eq_false] at hsuppressed
        exact hsuppressed e he (by simp [hne, hgrep])
      · simp [List.mem_singleton.mp hline] at hfile
      · simp at hline
    · have hne : e ≠ d := by
        rintro rfl
        simp [hstage] at hdone
      obtain ⟨hdue', hmake', hfailure⟩ := failures_of_jobFinal hc he hline hfile
      simp [hchecked e (List.mem_of_mem_filter he) hne hdue' hmake' l hfailure] at hgrep

/-- What has to be shown of one step. -/
theorem Paid.set (hp : Paid env dirs s) (hnodup : dirs.Nodup) (hd : d ∈ env.parallelDirs dirs)
    {lines : List Line} {stage : Env.Stage}
    (hpay : owed env dirs d (s.stage d) = lines ++ owed env dirs d stage)
    (hmade : ∀ l ∈ Env.makeLines d, l ∈ s.files ++ lines)
    (howner : ∀ l ∈ lines, l ∈ Env.makeLines d ∨ stage = .done ∧ l ∈ jobFinal env dirs d)
    (hlive : s.stage d ≠ .done) (hnext : stage ≠ .make)
    (hbarrier : stage ≠ .check → ∀ e ∈ env.parallelDirs dirs, s.stage e ≠ .make)
    (hguard : ∀ rc mytest, stage = .guard rc mytest →
      kind d.base = .other ∧ d.make_check.rc ≠ 0 ∧ rc = d.make_check.rc ∧ mytest = suppressed env dirs d) :
    Paid env dirs (s.set lines d stage) := by
  have hother {e : TestDir} (hne : e ≠ d) : (s.set lines d stage).stage e = s.stage e :=
    Env.State.stage_set_of_ne hne _ _
  constructor
  · exact (perm_set hnodup hd hpay).trans hp.perm
  · intro e he hstage l hl
    by_cases hne : e = d
    · exact hmade l (hne ▸ hl)
    · rw [hother hne] at hstage
      exact List.mem_append_left _ (hp.made e he hstage l hl)
  · intro l hl
    obtain hl | hl := List.mem_append.mp hl
    · obtain ⟨e, he, hline⟩ | ⟨e, he, hdone, hline⟩ := hp.owner l hl
      · exact .inl ⟨e, he, hline⟩
      · have hne : e ≠ d := by
          rintro rfl
          exact hlive hdone
        exact .inr ⟨e, he, (hother hne).trans hdone, hline⟩
    · obtain hline | ⟨hdone, hline⟩ := howner l hl
      · exact .inl ⟨d, hd, hline⟩
      · exact .inr ⟨d, hd, by rw [Env.State.stage_set_self, hdone], hline⟩
  · intro e he hmake hcheck f hf
    have hall : ∀ g ∈ env.parallelDirs dirs, s.stage g ≠ .make := by
      by_cases hne : e = d
      · rw [hne, Env.State.stage_set_self] at hcheck
        exact hbarrier hcheck
      · rw [hother hne] at hmake hcheck
        exact hp.barrier e he hmake hcheck
    by_cases hne : f = d
    · rw [hne, Env.State.stage_set_self]
      exact hnext
    · rw [hother hne]
      exact hall f hf
  · intro e he rc mytest hstage
    by_cases hne : e = d
    · rw [hne, Env.State.stage_set_self] at hstage
      rw [hne]
      exact hguard rc mytest hstage
    · rw [hother hne] at hstage
      exact hp.guard e he rc mytest hstage

theorem Paid.step (hp : Paid env dirs s) (hc : Consistent env dirs) (hnodup : dirs.Nodup)
    {s' : Env.State} (hstep : env.step (env.parallelDirs dirs) s d = some s') : Paid env dirs s' := by
  obtain ⟨hd, ⟨hstage, rfl⟩ | ⟨hstage, hmade, ⟨hk, hrc, rfl⟩ | ⟨hother, rfl⟩⟩ | ⟨rc, mytest, hstage, rfl⟩⟩ :=
    Env.step_cases hstep
  · apply hp.set hnodup hd
    · rw [hstage]
      rfl
    · exact fun l hl => List.mem_append_right _ hl
    · exact fun l hl => .inl hl
    · simp [hstage]
    · simp
    · exact fun h => absurd rfl h
    · simp
  · have hfound := hp.mytest hc hd hstage hmade hk hrc
    have hlines := Env.checkLines_of_rc hk hrc
    rw [hfound, hlines]
    apply hp.set hnodup hd
    · simp [hstage, owed, jobFinal, hlines, hk, hrc]
    · exact fun l hl => List.mem_append_left _ (hp.made d hd (hmade d hd) l hl)
    · simp
    · simp [hstage]
    · simp
    · exact fun _ => hmade
    · rintro _ _ ⟨⟩
      exact ⟨hk, hrc, rfl, rfl⟩
  · have hfinal : jobFinal env dirs d = Env.checkLines d := by
      have hnot : ¬ (kind d.base = .other ∧ d.make_check.rc ≠ 0 ∧ suppressed env dirs d = false) :=
        fun h => hother ⟨h.1, h.2.1⟩
      rw [jobFinal, if_neg hnot, List.append_nil]
    apply hp.set hnodup hd
    · simp [hstage, owed, hfinal]
    · exact fun l hl => List.mem_append_left _ (hp.made d hd (hmade d hd) l hl)
    · exact fun l hl => .inr ⟨rfl, hfinal ▸ hl⟩
    · simp [hstage]
    · simp
    · exact fun _ => hmade
    · simp
  · obtain ⟨hk, hrc, rfl, rfl⟩ := hp.guard d hd rc mytest hstage
    have hmade := hp.barrier d hd (by simp [hstage]) (by simp [hstage])
    have hiff : (names .make_fail s.files = [] ∨ suppressed env dirs d = false) ↔
        suppressed env dirs d = false := by
      constructor
      · rintro (hnil | hfalse)
        · by_contra hsuppressed
          obtain ⟨l, hl, hfile, -⟩ := hp.exists_makeFailed hmade (by simpa using hsuppressed)
          rw [names, List.map_eq_nil_iff, List.filter_eq_nil_iff] at hnil
          exact hnil l hl (by simp [hfile])
        · exact hfalse
      · exact .inr
    simp only [hiff]
    have hfinal : jobFinal env dirs d =
        if suppressed env dirs d = false then [Env.checkFailed d d.make_check.rc] else [] := by
      simp [jobFinal, Env.checkLines_of_rc hk hrc, hk, hrc]
    apply hp.set hnodup hd
    · simp [hstage, owed]
    · exact fun l hl => List.mem_append_left _ (hp.made d hd (hmade d hd) l hl)
    · exact fun l hl => .inr ⟨rfl, hfinal ▸ hl⟩
    · simp [hstage]
    · simp
    · exact fun _ => hmade
    · simp

theorem parallel_perm (hc : Consistent env dirs) (hnodup : dirs.Nodup) (h : env.Parallel dirs files) :
    files.Perm ((env.parallelDirs dirs).flatMap fun d => Env.makeLines d ++ jobFinal env dirs d) := by
  obtain ⟨s, hs, hdone, rfl⟩ := h
  have hp : Paid env dirs s := Reachable.invariant hs paid_start
    fun _ _ _ hp _ hstep => hp.step hc hnodup hstep
  have hnil : ((env.parallelDirs dirs).flatMap fun d => owed env dirs d (s.stage d)) = [] := by
    rw [List.flatMap_eq_nil_iff]
    intro d hd
    rw [hdone d hd]
    rfl
  have hperm := hp.perm
  rwa [hnil, List.append_nil] at hperm

theorem flatMap_due {f : TestDir → List Line} {g : TestDir → File × String} {l : List TestDir}
    (h : ∀ d ∈ l, (f d).map (fun l => (l.file, l.name)) = if env.due d = true then [g d] else []) :
    (l.flatMap f).map (fun l => (l.file, l.name)) = (l.filter env.due).map g := by
  induction l with
  | nil => rfl
  | cons d l ih =>
    rw [List.forall_mem_cons] at h
    rw [List.flatMap_cons, List.map_append, ih h.2, h.1, List.filter_cons]
    split_ifs <;> simp

theorem filter_parallelDirs (env : Env) (dirs : List TestDir) :
    (env.parallelDirs dirs).filter env.due = dirs.filter env.due := by
  rw [Env.parallelDirs, List.filter_filter]
  apply List.filter_congr
  intro d _
  cases hdue : env.due d with
  | false => simp
  | true =>
    simp only [Env.due, Bool.and_eq_true] at hdue
    simp [hdue.1.2]

theorem agree_of_consistent (hc : Consistent env dirs) (hbase : (dirs.map (·.base)).Nodup) :
    Agree env dirs := by
  have hnodup : dirs.Nodup := hbase.of_map
  have hseq : (env.sequential dirs).map (fun l => (l.file, l.name)) =
      (dirs.filter env.due).map fun d => (d.expected, d.base) :=
    flatMap_due fun d hd => sequential_lines hc hd
  have hpar {files : List Line} (h : env.Parallel dirs files) : (files.map fun l => (l.file, l.name)).Perm
      ((dirs.filter env.due).map fun d => (d.expected, d.base)) := by
    have hperm := (parallel_perm hc hnodup h).map fun l => (l.file, l.name)
    rwa [flatMap_due fun d hd => parallel_lines hc hd, filter_parallelDirs] at hperm
  refine ⟨reported_of_perm hbase hc.due (hseq ▸ List.Perm.refl _), fun files h => ?_⟩
  refine ⟨reported_of_perm hbase hc.due (hpar h), fun f name => ?_⟩
  rw [mem_names, mem_names, (hpar h).mem_iff, hseq]

theorem count_of_names {lines : List Line} (h : ∀ l ∈ lines, l.name = d.base) :
    (lines.map (·.name)).count d.base = lines.length := by
  rw [List.count_eq_length.mpr, List.length_map]
  intro name hname
  obtain ⟨l, hl, rfl⟩ := List.mem_map.mp hname
  exact (h l hl).symm

theorem count_of_names_ne {lines : List Line} {e : TestDir} (h : ∀ l ∈ lines, l.name = e.base)
    (hne : e.base ≠ d.base) : (lines.map (·.name)).count d.base = 0 := by
  rw [List.count_eq_zero]
  intro hmem
  obtain ⟨l, hl, hbase⟩ := List.mem_map.mp hmem
  exact hne ((h l hl).symm.trans hbase)

theorem count_flatMap {f : TestDir → List Line} {l : List TestDir}
    (hf : ∀ d, ∀ line ∈ f d, line.name = d.base)
    (hbase : (l.map (·.base)).Nodup) (hd : d ∈ l) :
    ((l.flatMap f).map (·.name)).count d.base = (f d).length := by
  have hzero (l : List TestDir) (h : d.base ∉ l.map (·.base)) :
      ((l.flatMap f).map (·.name)).count d.base = 0 := by
    rw [List.count_eq_zero]
    intro hmem
    obtain ⟨line, hline, hname⟩ := List.mem_map.mp hmem
    obtain ⟨e, he, hline⟩ := List.mem_flatMap.mp hline
    exact h (List.mem_map.mpr ⟨e, he, (hf e line hline).symm.trans hname⟩)
  induction l with
  | nil => simp at hd
  | cons e l ih =>
    rw [List.map_cons, List.nodup_cons] at hbase
    rw [List.flatMap_cons, List.map_append, List.count_append]
    obtain rfl | hd := List.mem_cons.mp hd
    · rw [hzero l hbase.1, count_of_names (hf d), Nat.add_zero]
    · have hne : e.base ≠ d.base := fun heq => hbase.1 (heq ▸ List.mem_map_of_mem hd)
      rw [count_of_names_ne (hf e) hne, ih hbase.2 hd, Nat.zero_add]

theorem name_of_mem_jobLines {files : List Line} {l : Line} (h : l ∈ env.jobLines files d) :
    l.name = d.base := by
  rw [Env.jobLines, List.mem_append] at h
  obtain h | h := h
  · exact Env.name_of_mem_checkLines h
  · exact Env.name_of_mem_failure rfl h

def madeFiles (env : Env) (dirs : List TestDir) : List Line :=
  (env.parallelDirs dirs).flatMap Env.makeLines

theorem count_madeFiles (hbase : (dirs.map (·.base)).Nodup) (hd : d ∈ env.parallelDirs dirs) :
    ((madeFiles env dirs).map (·.name)).count d.base = (Env.makeLines d).length :=
  count_flatMap (fun _ _ => Env.name_of_mem_makeLines) (hbase.sublist (List.filter_sublist.map _)) hd

theorem exists_after (hbase : (dirs.map (·.base)).Nodup) (hd : d ∈ dirs)
    (hs : env.Reaches dirs Env.start s)
    (hdone : s.stage d = .done) :
    ∃ files, env.Parallel dirs files ∧
      (files.map (·.name)).count d.base = (s.files.map (·.name)).count d.base := by
  obtain ⟨t, ht, hpar⟩ := Env.exists_parallel hs
  have hinj : ∀ e ∈ dirs, e.base = d.base → e = d := fun e he heq =>
    List.inj_on_of_nodup_map hbase he hd heq
  exact ⟨t.files, hpar, (ht.count_of_done hinj hdone).2⟩

theorem exists_first (hbase : (dirs.map (·.base)).Nodup) (hd : d ∈ env.parallelDirs dirs) :
    ∃ files, env.Parallel dirs files ∧ (files.map (·.name)).count d.base =
      (Env.makeLines d).length + (env.jobLines (madeFiles env dirs) d).length := by
  obtain ⟨s, hs, hfiles, hstage⟩ := Env.reaches_made env hbase.of_map
  have hmade : ∀ e ∈ env.parallelDirs dirs, s.stage e ≠ .make := fun e he => by simp [hstage e he]
  obtain ⟨t, ht, htfiles, hdone, -⟩ := Env.reaches_job hd hmade (hstage d hd)
  obtain ⟨files, hpar, hcount⟩ :=
    exists_after hbase (List.mem_of_mem_filter hd) (Reachable.trans hs ht) hdone
  refine ⟨files, hpar, ?_⟩
  rw [hcount, htfiles, hfiles, ← madeFiles, List.map_append, List.count_append, count_madeFiles hbase hd,
    count_of_names fun _ => name_of_mem_jobLines]

/-- A run in which two chosen checks are the first ones. -/
theorem exists_second (hbase : (dirs.map (·.base)).Nodup) {e : TestDir} (he : e ∈ env.parallelDirs dirs)
    (hd : d ∈ env.parallelDirs dirs) (hne : e ≠ d) :
    ∃ files, env.Parallel dirs files ∧ (files.map (·.name)).count d.base = (Env.makeLines d).length +
      (env.jobLines (madeFiles env dirs ++ env.jobLines (madeFiles env dirs) e) d).length := by
  have hbase_ne : e.base ≠ d.base := fun heq => hne
    (List.inj_on_of_nodup_map hbase (List.mem_of_mem_filter he) (List.mem_of_mem_filter hd) heq)
  obtain ⟨s, hs, hfiles, hstage⟩ := Env.reaches_made env hbase.of_map
  have hmade : ∀ f ∈ env.parallelDirs dirs, s.stage f ≠ .make := fun f hf => by simp [hstage f hf]
  obtain ⟨t, ht, htfiles, htdone, htstage⟩ := Env.reaches_job he hmade (hstage e he)
  have hmade' : ∀ f ∈ env.parallelDirs dirs, t.stage f ≠ .make := by
    intro f hf
    by_cases hfe : f = e
    · simp [hfe, htdone]
    · rw [htstage f hfe]
      exact hmade f hf
  have hcheck : t.stage d = .check := (htstage d (Ne.symm hne)).trans (hstage d hd)
  obtain ⟨u, hu, hufiles, hudone, -⟩ := Env.reaches_job hd hmade' hcheck
  obtain ⟨files, hpar, hcount⟩ := exists_after hbase (List.mem_of_mem_filter hd)
    (Reachable.trans hs (Reachable.trans ht hu)) hudone
  refine ⟨files, hpar, ?_⟩
  rw [hcount, hufiles, htfiles, hfiles, ← madeFiles, List.map_append, List.count_append, List.map_append,
    List.count_append, count_madeFiles hbase hd, count_of_names_ne (fun _ => name_of_mem_jobLines) hbase_ne,
    Nat.add_zero, count_of_names fun _ => name_of_mem_jobLines]

theorem mytest_madeFiles (env : Env) (dirs : List TestDir) (d : TestDir) :
    env.mytest (madeFiles env dirs) d = suppressed env dirs d := by
  rw [Bool.eq_iff_iff, Env.mytest, suppressed, List.any_eq_true, List.any_eq_true]
  constructor
  · rintro ⟨l, hl, hgrep⟩
    rw [Bool.and_eq_true, decide_eq_true_eq] at hgrep
    obtain ⟨e, he, hline⟩ := List.mem_flatMap.mp hl
    refine ⟨e, he, ?_⟩
    rw [Env.makeLines] at hline
    split_ifs at hline with hmake hgpus
    · rw [List.mem_singleton.mp hline] at hgrep
      simp [hmake, hgrep.2]
    · simp [List.mem_singleton.mp hline] at hgrep
    · simp at hline
  · rintro ⟨e, he, hgrep⟩
    rw [Bool.and_eq_true, decide_eq_true_eq] at hgrep
    refine ⟨makeFailed e.base, List.mem_flatMap.mpr ⟨e, he, ?_⟩,
      Bool.and_eq_true_iff.mpr ⟨decide_eq_true rfl, hgrep.2⟩⟩
    rw [Env.makeLines, if_pos hgrep.1]
    exact List.mem_singleton_self _

theorem mem_parallelDirs_of_due (hd : d ∈ dirs) (hdue : env.due d = true) :
    d ∈ env.parallelDirs dirs := by
  simp only [Env.due, Bool.and_eq_true] at hdue
  exact List.mem_filter.mpr ⟨hd, hdue.1.2⟩

theorem length_jobLines (files : List Line) (d : TestDir) : (env.jobLines files d).length =
    match kind d.base with
    | .visual | .verifyLog => (d.target.lines d.base).length
    | .flags | .gpus => 0
    | .liba => (d.target.lines d.base).length + if d.target.rc ≠ 0 then 1 else 0
    | .other => (d.target.lines d.base).length +
        if d.target.rc ≠ 0 ∧ env.mytest files d = false then 1 else 0 := by
  rw [Env.jobLines, Env.checkLines]
  cases hk : kind d.base <;> simp [TestDir.target, hk, apply_ite List.length]

theorem length_lines (m : Made) (base : String) :
    (m.lines base).length = if m.status = none then 0 else 1 := by
  rw [Made.lines]
  cases m.status <;> simp

theorem length_makeLines (d : TestDir) :
    (Env.makeLines d).length = if d.make ≠ 0 ∨ kind d.base = .gpus then 1 else 0 := by
  rw [Env.makeLines]
  split_ifs <;> simp_all

theorem status_of_target_rc (h : d.target.rc ≠ 0) : d.target.status = none := by
  by_contra hsome
  obtain ⟨n, hn⟩ := Option.ne_none_iff_exists'.mp hsome
  exact h (rc_of_status hn).2

section

variable (h : Agree env dirs) (hbase : (dirs.map (·.base)).Nodup)

include h hbase

theorem length_of_agree (hd : d ∈ dirs) (hdue : env.due d = true) :
    (Env.makeLines d).length + (env.jobLines (madeFiles env dirs) d).length = 1 := by
  obtain ⟨files, hfiles, hcount⟩ := exists_first hbase (mem_parallelDirs_of_due hd hdue)
  rw [← hcount, (h.2 files hfiles).1.once d hd hdue]

theorem not_suppressed_of_agree (hd : d ∈ dirs) (hdue : env.due d = true) (hk : kind d.base = .other)
    (hmake : d.make = 0) (hrc : d.target.rc ≠ 0) : suppressed env dirs d = false := by
  have hlength := length_of_agree h hbase hd hdue
  rw [length_makeLines, length_jobLines, length_lines, status_of_target_rc hrc,
    mytest_madeFiles] at hlength
  simpa [hk, hmake, hrc] using hlength

/-- The job of a failing check that runs first appends what it may append. -/
theorem mem_jobLines_of_agree {l : Line} (hd : d ∈ dirs) (hdue : env.due d = true) (hmake : d.make = 0)
    (hl : l ∈ failures d) : l ∈ env.jobLines (madeFiles env dirs) d ∧ l.file = .make_fail := by
  have hrc : d.target.rc ≠ 0 := by
    intro hzero
    simp [failures, hzero] at hl
  rw [failures, if_neg hrc] at hl
  cases hk : kind d.base with
  | liba =>
    have htarget := target_of_kind (.inr (.inl hk))
    simp only [hk, List.mem_singleton] at hl
    rw [hl]
    refine ⟨?_, rfl⟩
    simp [Env.jobLines, Env.checkLines, hk, ← htarget, hrc]
  | other =>
    have htarget := target_of_kind (.inr (.inr hk))
    have hfound : env.mytest (madeFiles env dirs) d = false := by
      rw [mytest_madeFiles]
      exact not_suppressed_of_agree h hbase hd hdue hk hmake hrc
    simp only [hk, List.mem_singleton] at hl
    rw [hl]
    refine ⟨?_, rfl⟩
    simp [Env.jobLines, hk, ← htarget, hrc, hfound]
  | _ => simp [hk] at hl

theorem grep_failures_of_agree {e : TestDir} {l : Line} (hd : d ∈ dirs) (hdue : env.due d = true)
    (hk : kind d.base = .other) (hmake : d.make = 0) (hrc : d.target.rc ≠ 0) (he : e ∈ dirs)
    (hne : e ≠ d) (hdue' : env.due e = true) (hmake' : e.make = 0) (hl : l ∈ failures e) :
    env.grep (d.base ++ ":") l.text = false := by
  obtain ⟨files, hfiles, hcount⟩ := exists_second hbase (mem_parallelDirs_of_due he hdue')
    (mem_parallelDirs_of_due hd hdue) hne
  rw [(h.2 files hfiles).1.once d hd hdue, length_makeLines, length_jobLines, length_lines,
    status_of_target_rc hrc] at hcount
  have hmytest : env.mytest (madeFiles env dirs ++ env.jobLines (madeFiles env dirs) e) d = false := by
    simpa [hk, hmake, hrc] using hcount
  rw [Env.mytest, List.any_eq_false] at hmytest
  obtain ⟨hmem, hfile⟩ := mem_jobLines_of_agree h hbase he hdue' hmake' hl
  rw [← Bool.not_eq_true]
  intro hgrep
  exact hmytest l (List.mem_append_right _ hmem) (by simp [hfile, hgrep])

/-- A directory that is not due leaves no line when it runs first. -/
theorem idle_of_agree (hd : d ∈ env.parallelDirs dirs) (hdue : env.due d = false) : Idle env dirs d := by
  have hmem : d ∈ dirs := List.mem_of_mem_filter hd
  obtain ⟨files, hfiles, hcount⟩ := exists_first hbase hd
  rw [List.count_eq_zero.mpr ((h.2 files hfiles).1.not_mem hbase hmem hdue), length_makeLines,
    length_jobLines, length_lines, mytest_madeFiles] at hcount
  have hmake : ¬ (d.make ≠ 0 ∨ kind d.base = .gpus) := by
    intro hmade
    simp [hmade] at hcount
    omega
  rw [not_or, not_not] at hmake
  have hflags : kind d.base = .flags → d.target.status = none ∧ d.target.rc = 0 := by
    intro hk
    simp [TestDir.target, hk, hmake.1]
  rw [if_neg (by simpa using hmake), Nat.zero_add] at hcount
  cases hk : kind d.base with
  | gpus => exact absurd hk hmake.2
  | flags => exact ⟨hmake.1, hmake.2, (hflags hk).1, .inl (hflags hk).2⟩
  | visual =>
    have hstatus : d.target.status = none := by
      by_contra hsome
      simp [hk, hsome] at hcount
    exact ⟨hmake.1, hmake.2, hstatus, .inr (.inl hk)⟩
  | verifyLog =>
    have hstatus : d.target.status = none := by
      by_contra hsome
      simp [hk, hsome] at hcount
    exact ⟨hmake.1, hmake.2, hstatus, .inr (.inr (.inl hk))⟩
  | liba =>
    simp only [hk] at hcount
    obtain ⟨hstatus, hrc⟩ := Nat.add_eq_zero_iff.mp hcount.symm
    exact ⟨hmake.1, hmake.2, by simpa using hstatus, .inl (by simpa using hrc)⟩
  | other =>
    simp only [hk] at hcount
    obtain ⟨hstatus, hfound⟩ := Nat.add_eq_zero_iff.mp hcount.symm
    refine ⟨hmake.1, hmake.2, by simpa using hstatus, ?_⟩
    by_cases hrc : d.target.rc = 0
    · exact .inl hrc
    · refine .inr (.inr (.inr ⟨hk, ?_⟩))
      simpa [hrc] using hfound

theorem consistent_of_agree : Consistent env dirs where
  due := by
    have hnumber := h.1.number
    rw [gatherdata_eq] at hnumber
    obtain ⟨hne, hlength⟩ := Option.ite_none_left_eq_some.mp hnumber
    rw [← List.countP_pos_iff, ← Option.some.inj hlength]
    exact List.length_pos_iff.mpr hne
  flags := by
    intro d hd hdue hmake hk
    have hlength := length_of_agree h hbase hd hdue
    simp [length_makeLines, length_jobLines, hk, hmake] at hlength
  unreported := by
    intro d hd hdue hk hmake
    by_contra hrc
    have hlength := length_of_agree h hbase hd hdue
    rw [length_makeLines, length_jobLines, length_lines, status_of_target_rc hrc] at hlength
    rcases hk with hk | hk <;> simp [hk, hmake] at hlength
  liba := by
    intro d hd hdue hk
    by_contra hmake
    have hlength := length_of_agree h hbase hd hdue
    have htarget : d.target = ⟨none, 2⟩ := by
      rw [target_of_kind (.inr (.inl hk)), make_check_of_make hmake]
    simp [length_makeLines, length_jobLines, length_lines, hk, hmake, htarget] at hlength
  rebuilt := by
    intro d hd hdue hk hmake
    have hlength := length_of_agree h hbase hd hdue
    have htarget : d.target = ⟨none, 2⟩ := by
      rw [target_of_kind (.inr (.inr hk)), make_check_of_make hmake]
    rw [length_makeLines, length_jobLines, length_lines, htarget, mytest_madeFiles] at hlength
    simpa [hk, hmake] using hlength
  checked := by
    intro d hd hdue hk hmake hrc
    refine ⟨not_suppressed_of_agree h hbase hd hdue hk hmake hrc, fun e he hne hdue' hmake' l hl => ?_⟩
    exact grep_failures_of_agree h hbase hd hdue hk hmake hrc he hne hdue' hmake' hl
  idle := fun _ hd hdue => idle_of_agree h hbase hd hdue

end

/-- The two modes agree and report every due directory once exactly under the condition. -/
theorem agree_iff (hbase : (dirs.map (·.base)).Nodup) : Agree env dirs ↔ Consistent env dirs :=
  ⟨fun h => consistent_of_agree h hbase, fun h => agree_of_consistent h hbase⟩

/-- A pattern without special characters. -/
def grepWord (pattern line : String) : Bool := pattern.toList <:+: line.toList

/-- One directory passes and one does not build. -/
theorem agree_iff_brokenBuild :
    Agree ⟨[], false, grepWord⟩
      [⟨"helloworld", true, true, .status 0, .failed 0⟩, ⟨"atomic", true, false, .status 0, .failed 0⟩] := by
  refine (agree_iff (by decide)).mpr
    ⟨by decide, by decide, by decide, by decide, by decide +kernel, by decide +kernel, ?_⟩
  have hdue : ∀ d ∈ Env.parallelDirs ⟨[], false, grepWord⟩
      [⟨"helloworld", true, true, .status 0, .failed 0⟩, ⟨"atomic", true, false, .status 0, .failed 0⟩],
      Env.due ⟨[], false, grepWord⟩ d = true := by decide
  exact fun d hd hnot => absurd (hdue d hd) (by simp [hnot])

/-- A directory of the skip list is run and reported by the parallel loops. -/
theorem not_agree_skipped :
    ¬ Agree ⟨["atomic"], false, grepWord⟩
      [⟨"helloworld", true, true, .status 0, .failed 0⟩, ⟨"atomic", true, true, .status 0, .failed 0⟩] := by
  intro h
  have hidle := (consistent_of_agree h (by decide)).idle ⟨"atomic", true, true, .status 0, .failed 0⟩
    (by decide) (by decide)
  exact absurd hidle.status (by decide)

end Aomp.Testing.Smoke
