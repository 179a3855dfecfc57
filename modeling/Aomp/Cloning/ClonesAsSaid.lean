import Aomp.Cloning.ManifestLines

/-!
# When each repository is cloned as its line says

The lines of a project are read right when the last word that mentions an attribute is that attribute,
an upstream comes before the revision, and no branch is taken from an earlier line. A line that is not
that of a project must not be taken for one.
-/

namespace Aomp.Cloning

open Foundations

section Skipped

variable (script : Script) (sites : Sites) (leftPath : Text) (line : List Text)

/-- The line does not name a project, or the script skips it. -/
def Skipped : Prop :=
  isProjectLine line = false ∨
    match script with
    | .cloneAomp => location sites script (remoteOf line) = none ∨ pathOf leftPath line = "aomp".toList
    | .cloneRocmlibs => ∃ word ∈ line.head?, "<!--".toList <+: word

theorem isCloned_eq_false : isCloned script sites leftPath line = false
    ↔ Skipped script sites leftPath line := by
  rw [isCloned, Bool.and_eq_false_iff]
  cases script with
  | cloneAomp =>
    cases hremote : location sites .cloneAomp (remoteOf line) <;>
      simp [Skipped, Script.elseIsGood, Script.skipsComment, Script.skipsRepo, hremote]
  | cloneRocmlibs =>
    cases hfirst : line.head? <;>
      simp [Skipped, Script.elseIsGood, Script.skipsComment, Script.skipsRepo, hfirst]

end Skipped

/-- What the earlier lines leave in the variables. -/
structure Left where
  path : Text
  branch : Text
  site : Text

/-- The variables after some lines, from those at the start. -/
def left (script : Script) (sites : Sites) (s : Shell) (lines : List (List Text)) : Left where
  path := (leftBy (fun line => lastRead "path=" (echo line)) lines).getD s.path
  branch := (leftBy (fun line => branchOf (echo line)) lines).getD s.COBRANCH
  site := (leftBy (fun line => location sites script (remoteOf line)) lines).getD s.repo_web_location

/-- The site that a script clones from. `clone_rocmlibs.sh` keeps the one before for an unknown
remote. -/
def siteOf (script : Script) (sites : Sites) (leftSite : Text) (remote : Text) : Option Text :=
  match script with
  | .cloneAomp => location sites script remote
  | .cloneRocmlibs => some ((location sites script remote).getD leftSite)

/-- The line of a project is read as the project says. -/
structure ReadsOwn (script : Script) (sites : Sites) (left : Left) (defaultRevision : Text)
    (p : Project) : Prop where
  known : (location sites script p.remote).isSome
  site : (said "remote=" p.words).bind (siteOf script sites left.site) = location sites script p.remote
  name : said "name=" p.words = some p.name
  path : said "path=" p.words = some p.path
  branch : match p.upstream, p.revision with
    | some upstream, some _ => said "upstream=" p.words = some upstream
    | some _, none => said "upstream=" p.words = some defaultRevision
    | none, some revision => saidBranch p.words = some revision
    | none, none => (saidBranch p.words).getD left.branch = defaultRevision
  key : (saidKey p.words).getD [] = p.key

/-- The line leads to the calls it says. -/
def IsReadRight (script : Script) (sites : Sites) (left : Left) (defaultRevision : Text) :
    Line → Prop
  | .project p => (p.IsListed script sites → ReadsOwn script sites left defaultRevision p)
      ∧ (¬ p.IsListed script sites → Skipped script sites left.path (Line.project p).text
        ∨ ReadsOwn script sites left defaultRevision p)
  | .other words => Skipped script sites left.path (Line.other words).text

namespace Project

variable (p : Project)

theorem text_eq : (Line.project p).text
    = "<project".toList :: (attributeWords p.glued p.attributes).map Word.text := rfl

theorem isProjectLine_text : isProjectLine (Line.project p).text = true := by
  rw [text_eq, isProjectLine, List.any_cons]
  rfl

theorem echo_text : echo (Line.project p).text = (Line.project p).text := by
  rw [text_eq, echo, List.dropWhile_cons_of_neg (by decide)]

theorem lastRead_echo {pattern : String} (hpattern : '=' ∈ pattern.toList) :
    lastRead pattern (echo (Line.project p).text) = said pattern p.words := by
  rw [echo_text, Line.text, lastRead_text hpattern, Line.words]

theorem branchOf_echo : branchOf (echo (Line.project p).text) = saidBranch p.words := by
  rw [echo_text, Line.text, branchOf_text, Line.words]

theorem keyOf_echo : keyOf (echo (Line.project p).text) = saidKey p.words := by
  rw [echo_text, Line.text, keyOf_text, Line.words]

theorem exists_field_mem {a : Attribute} (glued : Bool) {attributes : List Attribute}
    (ha : a ∈ attributes) : ∃ closing, Word.field a closing ∈ attributeWords glued attributes := by
  fun_induction attributeWords glued attributes with
  | case1 => simp at ha
  | case2 b hglued =>
    rw [List.mem_singleton] at ha
    exact ⟨_, List.mem_singleton.mpr (by rw [ha])⟩
  | case3 b hglued =>
    rw [List.mem_singleton] at ha
    exact ⟨none, by simp [ha]⟩
  | case4 b c attributes ih =>
    rw [List.mem_cons] at ha
    obtain rfl | ha := ha
    · exact ⟨none, by simp⟩
    · obtain ⟨closing, hmem⟩ := ih ha
      exact ⟨closing, List.mem_cons_of_mem _ hmem⟩

theorem mentions_field (a : Attribute) (closing : Option Closing) {pattern : String}
    (hpattern : pattern.toList = a.key ++ ['=']) :
    mentions pattern (Word.field a closing).text = true := by
  rw [mentions, decide_eq_true_eq, hpattern, Word.text]
  exact ⟨[], '"' :: (a.value ++ '"' :: Word.closing closing), by simp⟩

theorem exists_said {key : String} {value : Text} (h : valueOf key p.attributes = some value) :
    ∃ read, said (key ++ "=") p.words = some read := by
  rw [valueOf, Option.map_eq_some_iff] at h
  obtain ⟨a, hfind, -⟩ := h
  have hkey : a.key = key.toList := by simpa using List.find?_some hfind
  obtain ⟨closing, hmem⟩ := exists_field_mem p.glued (List.mem_of_find?_eq_some hfind)
  rw [← Option.isSome_iff_exists, said, Option.isSome_iff_ne_none]
  intro hnone
  rw [lastValue_eq_none] at hnone
  have hword := hnone _ (List.mem_cons_of_mem _ hmem)
  rw [if_pos (mentions_field a closing (by rw [String.toList_append, hkey]; rfl))] at hword
  exact Option.some_ne_none _ hword

theorem saidBranch_of_upstream {words : List Word} (h : said "upstream=" words = none) :
    saidBranch words = said "revision=" words := by
  have hall : words.takeWhile (!saysUpstream ·) = words := by
    rw [said, lastValue_eq_none] at h
    rw [List.takeWhile_eq_self_iff]
    intro word hword
    have hother := h word hword
    rw [saysUpstream, mentionsUpstream]
    split at hother
    next => exact absurd hother (Option.some_ne_none _)
    next hmention => simpa using hmention
  rw [saidBranch, h, Option.none_or, hall]

theorem exists_saidBranch {words : List Word} {read : Text} (h : said "revision=" words = some read) :
    ∃ branch, saidBranch words = some branch := by
  cases hupstream : said "upstream=" words with
  | some upstream =>
    rw [saidBranch, hupstream]
    exact ⟨upstream, rfl⟩
  | none =>
    rw [saidBranch_of_upstream hupstream, h]
    exact ⟨read, rfl⟩

/-- The branch, case by case. -/
theorem branch_iff (leftBranch defaultRevision : Text) :
    (saidBranch p.words).getD leftBranch = p.branch defaultRevision ↔
      match p.upstream, p.revision with
      | some upstream, some _ => said "upstream=" p.words = some upstream
      | some _, none => said "upstream=" p.words = some defaultRevision
      | none, some revision => saidBranch p.words = some revision
      | none, none => (saidBranch p.words).getD leftBranch = defaultRevision := by
  rw [branch]
  cases hupstream : p.upstream with
  | some upstream =>
    obtain ⟨read, hread⟩ := p.exists_said hupstream
    have hsaid : saidBranch p.words = some read := by
      rw [saidBranch]
      exact congrArg (Option.or · _) hread
    have hread : said "upstream=" p.words = some read := hread
    cases p.revision <;> simp [hsaid, hread]
  | none =>
    cases hrevision : p.revision with
    | some revision =>
      obtain ⟨read, hread⟩ := p.exists_said hrevision
      obtain ⟨branch, hbranch⟩ := exists_saidBranch hread
      simp [hbranch]
    | none => rfl

end Project

section OneLine

variable {script : Script} {sites : Sites} {s : Shell} {before : List (List Text)}
variable {defaultRevision : Text} {p : Project}

theorem callsAt_eq (line : List Text) : callsAt script sites s before line
    = if isCloned script sites (left script sites s before).path line then
        [⟨(location sites script (remoteOf line)).getD (left script sites s before).site,
          pathOf (left script sites s before).path line,
          (lastRead "name=" (echo line)).getD (afterLines script sites s before).name,
          (branchOf (echo line)).getD (left script sites s before).branch,
          (keyOf (echo line)).getD []⟩]
      else [] := by
  rw [callsAt, manifestLine_calls, afterLines_path, afterLines_COBRANCH, afterLines_repo_web_location]
  rfl

theorem siteOf_eq {leftPath : Text} (leftSite : Text) {line : List Text}
    (h : isCloned script sites leftPath line = true) :
    siteOf script sites leftSite (remoteOf line)
      = some ((location sites script (remoteOf line)).getD leftSite) := by
  cases script with
  | cloneAomp =>
    cases hremote : location sites .cloneAomp (remoteOf line) with
    | none => simp [isCloned, Script.elseIsGood, hremote] at h
    | some site => rw [siteOf, hremote, Option.getD_some]
  | cloneRocmlibs => rfl

theorem remoteOf_text : some (remoteOf (Line.project p).text) = said "remote=" p.words := by
  obtain ⟨read, hread⟩ := p.exists_said p.remote_eq
  have hread : said "remote=" p.words = some read := hread
  rw [remoteOf, p.lastRead_echo (by decide), hread, Option.getD_some]

theorem pathOf_text (leftPath : Text) :
    some (pathOf leftPath (Line.project p).text) = said "path=" p.words := by
  obtain ⟨read, hread⟩ := p.exists_said p.path_eq
  have hread : said "path=" p.words = some read := hread
  rw [pathOf, p.lastRead_echo (by decide), hread, Option.getD_some]

/-- A project that is read right is cloned, but for aomp. -/
theorem isCloned_of_readsOwn {l : Left} (h : ReadsOwn script sites l defaultRevision p)
    (hpath : p.path ≠ "aomp".toList) : isCloned script sites l.path (Line.project p).text = true := by
  have hsite := h.site
  have hread := pathOf_text (p := p) l.path
  rw [h.path, Option.some_inj] at hread
  rw [← remoteOf_text, Option.bind_some] at hsite
  have hknown := h.known
  rw [← hsite] at hknown
  rw [isCloned, p.isProjectLine_text, hread]
  cases script with
  | cloneAomp =>
    rw [siteOf] at hknown
    have hother : Script.cloneAomp.skipsRepo p.path = false := decide_eq_false hpath
    simp [hknown, Script.skipsComment, hother]
  | cloneRocmlibs =>
    simp [Script.elseIsGood, Script.skipsComment, Script.skipsRepo, p.text_eq]

/-- The call for a project that is cloned is its own one when its line is read right. -/
theorem call_iff_readsOwn (defaultRevision : Text)
    (h : isCloned script sites (left script sites s before).path (Line.project p).text = true) :
    (∀ call ∈ callsAt script sites s before (Line.project p).text,
        p.call script sites defaultRevision = some call)
      ↔ ReadsOwn script sites (left script sites s before) defaultRevision p := by
  obtain ⟨name, hname⟩ := p.exists_said p.name_eq
  have hname : said "name=" p.words = some name := hname
  have hsite := siteOf_eq (left script sites s before).site h
  have hremote := remoteOf_text (p := p)
  have hpath := pathOf_text (p := p) (left script sites s before).path
  have hbranch := p.branch_iff (left script sites s before).branch defaultRevision
  rw [callsAt_eq, if_pos h]
  rw [p.branchOf_echo, p.keyOf_echo, p.lastRead_echo (by decide), hname, Option.getD_some]
  simp only [List.mem_singleton, forall_eq]
  rw [Project.call, Option.map_eq_some_iff]
  constructor
  · rintro ⟨site, hlocation, hcall⟩
    rw [Call.mk.injEq] at hcall
    obtain ⟨hsame, hpathRead, hnameRead, hbranchRead, hkeyRead⟩ := hcall
    constructor
    · rw [hlocation, Option.isSome_some]
    · rw [← hremote, Option.bind_some, hsite, hlocation, hsame]
    · rw [hname, hnameRead]
    · rw [← hpath, hpathRead]
    · exact hbranch.mp hbranchRead.symm
    · exact hkeyRead.symm
  · intro hown
    obtain ⟨site, hlocation⟩ := Option.isSome_iff_exists.mp hown.known
    have hread := hown.site
    rw [← hremote, Option.bind_some, hsite, hlocation, Option.some_inj] at hread
    have hpathRead := hown.path
    rw [← hpath, Option.some_inj] at hpathRead
    have hnameRead := hown.name
    rw [hname, Option.some_inj] at hnameRead
    refine ⟨site, hlocation, ?_⟩
    rw [hread, hpathRead, hnameRead, hbranch.mpr hown.branch, hown.key]

end OneLine

section Manifest

variable {script : Script} {sites : Sites} {s : Shell} {before : List (List Text)}
variable {defaultRevision : Text}

theorem callsAt_eq_nil (line : List Text) : callsAt script sites s before line = []
    ↔ Skipped script sites (left script sites s before).path line := by
  rw [callsAt_eq, ← isCloned_eq_false]
  split <;> simp_all

theorem areRight_other_iff (words : List Word) :
    AreRight script sites defaultRevision (.other words)
        (callsAt script sites s before (Line.other words).text)
      ↔ IsReadRight script sites (left script sites s before) defaultRevision (.other words) := by
  have hnone : callsAt script sites s before (Line.other words).text = [] ↔ _ := callsAt_eq_nil _
  rw [IsReadRight, ← hnone]
  constructor
  · intro h
    rw [List.eq_nil_iff_forall_not_mem]
    intro call hcall
    cases h.own call hcall
  · intro h
    rw [h]
    constructor
    · simp
    · exact False.elim

/-- A project is right when it is skipped on purpose or cloned from its own line. -/
theorem areRight_project_iff (p : Project) :
    AreRight script sites defaultRevision (.project p)
        (callsAt script sites s before (Line.project p).text)
      ↔ IsReadRight script sites (left script sites s before) defaultRevision (.project p) := by
  have hskipped := isCloned_eq_false script sites (left script sites s before).path
    (Line.project p).text
  cases hcloned : isCloned script sites (left script sites s before).path (Line.project p).text with
  | false =>
    have hskip := hskipped.mp hcloned
    rw [(callsAt_eq_nil _).mpr hskip]
    constructor
    · intro h
      have hunlisted : ¬ p.IsListed script sites := fun hlisted => absurd (h.once hlisted) (by simp)
      exact ⟨fun hlisted => absurd hlisted hunlisted, fun _ => Or.inl hskip⟩
    · intro h
      constructor
      · simp
      · intro hlisted
        have hread := isCloned_of_readsOwn (h.1 hlisted) hlisted.2
        exact absurd (hread.symm.trans hcloned) (by decide)
  | true =>
    have hown := call_iff_readsOwn defaultRevision hcloned
    have hread : ¬ Skipped script sites (left script sites s before).path (Line.project p).text := by
      rw [← hskipped, hcloned]
      decide
    constructor
    · intro h
      have hreads := hown.mp h.own
      exact ⟨fun _ => hreads, fun _ => Or.inr hreads⟩
    · intro h
      have hreads : ReadsOwn script sites (left script sites s before) defaultRevision p := by
        by_cases hlisted : p.IsListed script sites
        · exact h.1 hlisted
        · exact (h.2 hlisted).resolve_left hread
      constructor
      · exact hown.mpr hreads
      · intro _
        rw [callsAt_eq, if_pos hcloned]
        rfl

theorem areRight_iff (line : Line) :
    AreRight script sites defaultRevision line (callsAt script sites s before line.text)
      ↔ IsReadRight script sites (left script sites s before) defaultRevision line := by
  cases line with
  | other words => exact areRight_other_iff words
  | project p => exact areRight_project_iff p

/-- The repositories are cloned as the manifest says exactly when every line is read right. -/
theorem clonesAsSaid_iff (script : Script) (sites : Sites) (s : Shell) (m : Manifest) :
    ClonesAsSaid script sites s m ↔ ∀ before line after, m.lines = before ++ line :: after →
      IsReadRight script sites (left script sites s (before.map Line.text)) m.defaultRevision line := by
  constructor
  · intro h before line after hm
    exact (areRight_iff line).mp (h before line after hm)
  · intro h before line after hm
    exact (areRight_iff line).mpr (h before line after hm)

def quoted (key value : String)
    (hkey : key.toList.all isKeyChar := by decide)
    (hvalue : value.toList.all (!isMeta ·) := by decide) : Attribute :=
  ⟨key.toList, value.toList, hkey, hvalue⟩

def pinned : Project where
  attributes := [quoted "remote" "hwloc", quoted "path" "hwloc", quoted "name" "hwloc",
    quoted "revision" "v2.7"]
  glued := false
  remote := "hwloc".toList
  name := "hwloc".toList
  path := "hwloc".toList
  keys_nodup := by decide
  remote_eq := by decide
  name_eq := by decide
  path_eq := by decide

def unpinned : Project where
  attributes := [quoted "remote" "gerritgit", quoted "path" "hip", quoted "name" "hip"]
  glued := false
  remote := "gerritgit".toList
  name := "hip".toList
  path := "hip".toList
  keys_nodup := by decide
  remote_eq := by decide
  name_eq := by decide
  path_eq := by decide

def develop : Default where
  attributes := [quoted "revision" "develop", quoted "remote" "gerritgit"]
  glued := false

def branchLeft : Manifest := [.default develop, .project pinned, .project unpinned]

def exampleSites : Sites := ⟨[], [], [], "gerrit".toList, "hwloc".toList, [], []⟩

def emptyShell : Shell := ⟨[], [], [], [], [], false, []⟩

theorem callsAt_unpinned (script : Script) :
    callsAt script exampleSites emptyShell
        [(Line.other develop.words).text, (Line.project pinned).text] (Line.project unpinned).text
      = [⟨"gerrit".toList, "hip".toList, "hip".toList, "v2.7".toList, []⟩] := by
  cases script <;> decide +kernel

theorem branchLeft_wrong (script : Script) :
    ¬ ClonesAsSaid script exampleSites emptyShell branchLeft := by
  intro h
  have hown := (h [.other develop.words, .project pinned] (.project unpinned) [] rfl).own
  rw [List.map_cons, List.map_cons, List.map_nil, callsAt_unpinned] at hown
  have hdefault : unpinned.branch branchLeft.defaultRevision = "develop".toList := by decide
  have hsame := hown _ (List.mem_singleton_self _)
  rw [Line.call, Project.call, hdefault, Option.map_eq_some_iff] at hsame
  obtain ⟨site, -, hcall⟩ := hsame
  have hbranch : "develop".toList = "v2.7".toList := congrArg Call.COBRANCH hcall
  exact absurd hbranch (by decide)

theorem not_clonesAsSaid_branchLeft :
    ¬ ClonesAsSaid .cloneAomp exampleSites emptyShell branchLeft
      ∧ ¬ ClonesAsSaid .cloneRocmlibs exampleSites emptyShell branchLeft :=
  ⟨branchLeft_wrong .cloneAomp, branchLeft_wrong .cloneRocmlibs⟩

end Manifest

end Aomp.Cloning
