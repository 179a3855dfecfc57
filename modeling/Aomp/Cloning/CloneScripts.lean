import Mathlib.Data.List.TakeWhile
import Aomp.Foundations.LastValue
import Aomp.Foundations.TextSearch

/-!
# Cloning what a manifest lists

`clone_aomp.sh` and its copy `clone_rocmlibs.sh` read a manifest line by line and clone one repository
for each line. The attributes of a line are assigned to shell variables word by word; whatever a line
does not assign is left from the lines before it.
-/

namespace Aomp.Cloning

open Foundations

abbrev Text := List Char

/-- The words that `echo` takes for options. -/
def isEchoOption : Text → Bool
  | '-' :: c :: cs => (c :: cs).all (· ∈ ['n', 'e', 'E'])
  | _ => false

def echo (words : List Text) : List Text := words.dropWhile isEchoOption

/-- `cut -d= -f2` -/
def cut2 (text : Text) : Text :=
  if '=' ∈ text then ((text.dropWhile (· ≠ '=')).drop 1).takeWhile (· ≠ '=') else text

/-- The word that `eval` reads. A quote without end is an error, and so is a `>` outside of quotes
unless it takes the output away. -/
def evalWord : Bool → Text → Option Text
  | quoted, [] => if quoted then none else some []
  | quoted, c :: text =>
    if c = '"' then evalWord (!quoted) text
    else if !quoted && c = '>' then none
    else (evalWord quoted text).map (c :: ·)

/-- `$(eval echo text)` -/
def evalEcho (text : Text) : Text :=
  match evalWord false text with
  | some word => if isEchoOption word then [] else word
  | none => []

/-- `$(eval echo $(echo $field | cut -d= -f2))` -/
def fieldValue (field : Text) : Text := evalEcho (cut2 field)

/-- `[ -z "${field##*pattern*}" ]` -/
def mentions (pattern : String) (field : Text) : Bool := pattern.toList <:+: field

/-- The two copies of the loop. -/
inductive Script
  | cloneAomp
  | cloneRocmlibs
  deriving DecidableEq

/-- The web locations, one variable each. -/
structure Sites where
  GITROC : Text
  GITROCDEV : Text
  GITROCSW : Text
  GITGERRIT : Text
  GITHWLOC : Text
  GITLIGHTNINGINTERNAL : Text
  POWERINFER_REPO : Text

/-- The variables of the loop. -/
structure Shell where
  remote : Text
  name : Text
  path : Text
  COBRANCH : Text
  COSHAKEY : Text
  sha_key_used : Bool
  repo_web_location : Text

/-- What `clone_or_pull` is called with. -/
structure Call where
  repo_web_location : Text
  reponame : Text
  repogitname : Text
  COBRANCH : Text
  COSHAKEY : Text
  deriving DecidableEq

/-- `$(echo $line | grep remote | cut -d"=" -f2)` -/
def firstRemote (line : List Text) : Text :=
  let text := [' '].intercalate (echo line)
  if mentions "remote" text then cut2 text else []

def startLine (s : Shell) (line : List Text) : Shell :=
  { s with remote := firstRemote line, sha_key_used := false, COSHAKEY := [] }

/-- The body of `for field in $(echo $line)`. -/
def readField (s : Shell) (field : Text) : Shell :=
  let s := if mentions "remote=" field then { s with remote := fieldValue field } else s
  let s := if mentions "name=" field then { s with name := fieldValue field } else s
  let s := if mentions "path=" field then { s with path := fieldValue field } else s
  let s := if mentions "upstream=" field then
    { s with COBRANCH := fieldValue field, sha_key_used := true } else s
  if mentions "revision=" field && s.sha_key_used then { s with COSHAKEY := fieldValue field }
  else if mentions "revision=" field then { s with COBRANCH := fieldValue field }
  else s

def readFields (s : Shell) (line : List Text) : Shell := (echo line).foldl readField (startLine s line)

def location (sites : Sites) : Script → Text → Option Text
  | .cloneAomp, remote =>
    if remote = "roc".toList then some sites.GITROC
    else if remote = "gerritgit".toList then some sites.GITGERRIT
    else if remote = "hwloc".toList then some sites.GITHWLOC
    else if remote = "githubemu-lightning".toList then some sites.GITLIGHTNINGINTERNAL
    else none
  | .cloneRocmlibs, remote =>
    if remote = "rocm".toList then some sites.GITROC
    else if remote = "roctools".toList then some sites.GITROCDEV
    else if remote = "rocsw".toList then some sites.GITROCSW
    else if remote = "gerritgit".toList then some sites.GITGERRIT
    else if remote = "hwloc".toList then some sites.GITHWLOC
    else if remote = "SJTU".toList then some sites.POWERINFER_REPO
    else none

/-- `line_is_good` for a remote that the script does not know. -/
def Script.elseIsGood : Script → Bool
  | .cloneAomp => false
  | .cloneRocmlibs => true

/-- `[ "${line:0:4}" == "<!--" ]`, which only the copy for the ROCm libraries looks at. -/
def Script.skipsComment (script : Script) (line : List Text) : Bool :=
  script = .cloneRocmlibs && (line.head?.any fun word => "<!--".toList <+: word)

/-- `[ $reponame == "aomp" ]`, which only `clone_aomp.sh` looks at. -/
def Script.skipsRepo (script : Script) (reponame : Text) : Bool :=
  script = .cloneAomp && reponame = "aomp".toList

def lineIsGood (script : Script) (sites : Sites) (s : Shell) (line : List Text) : Bool :=
  ((location sites script s.remote).isSome || script.elseIsGood) && !script.skipsComment line

/-- One round of `while read line`, and the calls in it. -/
def processLine (script : Script) (sites : Sites) (s : Shell) (line : List Text) :
    Shell × List Call :=
  let s := readFields s line
  let s := { s with repo_web_location :=
    (location sites script s.remote).getD s.repo_web_location }
  if lineIsGood script sites s line && !script.skipsRepo s.path then
    (s, [⟨s.repo_web_location, s.path, s.name, s.COBRANCH, s.COSHAKEY⟩])
  else (s, [])

/-- `grep project` -/
def isProjectLine (line : List Text) : Bool := line.any (mentions "project")

/-- A line of the manifest: what `grep` does not select is not read. -/
def manifestLine (script : Script) (sites : Sites) (s : Shell) (line : List Text) :
    Shell × List Call :=
  if isProjectLine line then processLine script sites s line else (s, [])

def afterLines (script : Script) (sites : Sites) (s : Shell) (lines : List (List Text)) : Shell :=
  lines.foldl (fun s line => (manifestLine script sites s line).1) s

def callsAt (script : Script) (sites : Sites) (s : Shell) (before : List (List Text))
    (line : List Text) : List Call :=
  (manifestLine script sites (afterLines script sites s before) line).2

def lastRead (pattern : String) (words : List Text) : Option Text :=
  lastValue (fun word => if mentions pattern word then some (fieldValue word) else none) words

def mentionsUpstream (word : Text) : Bool := mentions "upstream=" word

def branchOf (words : List Text) : Option Text :=
  (lastRead "upstream=" words).or (lastRead "revision=" (words.takeWhile (!mentionsUpstream ·)))

def keyOf (words : List Text) : Option Text :=
  lastRead "revision=" (words.dropWhile (!mentionsUpstream ·))

section Fields

variable (s : Shell) (field : Text) (words : List Text)

theorem readField_remote : (readField s field).remote
    = (if mentions "remote=" field then some (fieldValue field) else none).getD s.remote := by
  simp only [readField, apply_ite Shell.remote, ite_self]
  split <;> rfl

theorem readField_name : (readField s field).name
    = (if mentions "name=" field then some (fieldValue field) else none).getD s.name := by
  simp only [readField, apply_ite Shell.name, ite_self]
  split <;> rfl

theorem readField_path : (readField s field).path
    = (if mentions "path=" field then some (fieldValue field) else none).getD s.path := by
  simp only [readField, apply_ite Shell.path, ite_self]
  split <;> rfl

theorem readField_repo_web_location :
    (readField s field).repo_web_location = s.repo_web_location := by
  simp only [readField, apply_ite Shell.repo_web_location, ite_self]

theorem readField_sha_key_used :
    (readField s field).sha_key_used = (s.sha_key_used || mentionsUpstream field) := by
  simp only [readField, mentionsUpstream, apply_ite Shell.sha_key_used, ite_self]
  cases mentions "upstream=" field <;> simp

theorem readField_COBRANCH_of_used (hused : s.sha_key_used = true) : (readField s field).COBRANCH
    = (if mentions "upstream=" field then some (fieldValue field) else none).getD s.COBRANCH := by
  simp only [readField, apply_ite Shell.COBRANCH, apply_ite Shell.sha_key_used, hused, ite_self]
  cases mentions "upstream=" field <;> cases mentions "revision=" field <;> rfl

theorem readField_COSHAKEY_of_used (hused : s.sha_key_used = true) : (readField s field).COSHAKEY
    = (if mentions "revision=" field then some (fieldValue field) else none).getD s.COSHAKEY := by
  simp only [readField, apply_ite Shell.COSHAKEY, apply_ite Shell.sha_key_used, hused, ite_self]
  cases mentions "revision=" field <;> rfl

theorem readField_COBRANCH_of_unused (hused : s.sha_key_used = false)
    (hfield : mentionsUpstream field = false) : (readField s field).COBRANCH
      = (if mentions "revision=" field then some (fieldValue field) else none).getD s.COBRANCH := by
  rw [mentionsUpstream] at hfield
  simp only [readField, hfield, apply_ite Shell.COBRANCH, apply_ite Shell.sha_key_used, hused, ite_self]
  cases mentions "revision=" field <;> rfl

theorem readField_COSHAKEY_of_unused (hused : s.sha_key_used = false)
    (hfield : mentionsUpstream field = false) : (readField s field).COSHAKEY = s.COSHAKEY := by
  rw [mentionsUpstream] at hfield
  simp only [readField, hfield, apply_ite Shell.COSHAKEY, apply_ite Shell.sha_key_used, hused, ite_self]
  cases mentions "revision=" field <;> rfl

/-- The word with the upstream is read as if an upstream came before it. -/
theorem readField_of_upstream (hfield : mentionsUpstream field = true) :
    readField s field = readField { s with sha_key_used := true } field := by
  rw [mentionsUpstream] at hfield
  simp only [readField, hfield]
  cases mentions "remote=" field <;> cases mentions "name=" field <;>
    cases mentions "path=" field <;> rfl

end Fields

section Words

variable (s : Shell) (words line : List Text)

theorem foldl_readField_remote :
    (words.foldl readField s).remote = (lastRead "remote=" words).getD s.remote :=
  lastValue_foldl s words readField_remote

theorem foldl_readField_name :
    (words.foldl readField s).name = (lastRead "name=" words).getD s.name :=
  lastValue_foldl s words readField_name

theorem foldl_readField_path :
    (words.foldl readField s).path = (lastRead "path=" words).getD s.path :=
  lastValue_foldl s words readField_path

theorem foldl_readField_repo_web_location :
    (words.foldl readField s).repo_web_location = s.repo_web_location :=
  foldl_inv (fun t => t.repo_web_location = s.repo_web_location) s words rfl
    fun t field _ ht => (readField_repo_web_location t field).trans ht

/-- From the first upstream on, upstreams name the branch and revisions the key. -/
theorem foldl_readField_of_used (hused : s.sha_key_used = true) :
    (words.foldl readField s).COBRANCH = (lastRead "upstream=" words).getD s.COBRANCH
      ∧ (words.foldl readField s).COSHAKEY = (lastRead "revision=" words).getD s.COSHAKEY := by
  have hkept : ∀ t : Shell, ∀ field ∈ words, t.sha_key_used = true →
      (readField t field).sha_key_used = true := by
    intro t field _ ht
    rw [readField_sha_key_used, ht, Bool.true_or]
  constructor
  · exact lastValue_foldl_of_inv (·.sha_key_used = true) s words hused hkept
      fun t field _ => readField_COBRANCH_of_used t field
  · exact lastValue_foldl_of_inv (·.sha_key_used = true) s words hused hkept
      fun t field _ => readField_COSHAKEY_of_used t field

/-- Before the first upstream, revisions name the branch. -/
theorem foldl_readField_of_unused (hused : s.sha_key_used = false)
    (hwords : ∀ word ∈ words, mentionsUpstream word = false) :
    (words.foldl readField s).sha_key_used = false
      ∧ (words.foldl readField s).COBRANCH = (lastRead "revision=" words).getD s.COBRANCH
      ∧ (words.foldl readField s).COSHAKEY = s.COSHAKEY := by
  have hkept : ∀ t : Shell, ∀ field ∈ words, t.sha_key_used = false →
      (readField t field).sha_key_used = false := by
    intro t field hfield ht
    rw [readField_sha_key_used, ht, hwords field hfield, Bool.or_false]
  have hkey : ∀ t : Shell, ∀ field ∈ words, t.sha_key_used = false ∧ t.COSHAKEY = s.COSHAKEY →
      (readField t field).sha_key_used = false ∧ (readField t field).COSHAKEY = s.COSHAKEY := by
    intro t field hfield ht
    rw [readField_COSHAKEY_of_unused t field ht.1 (hwords field hfield)]
    exact ⟨hkept t field hfield ht.1, ht.2⟩
  have hend := foldl_inv (fun t : Shell => t.sha_key_used = false ∧ t.COSHAKEY = s.COSHAKEY)
    s words ⟨hused, rfl⟩ hkey
  have hbranch : (words.foldl readField s).COBRANCH = (lastRead "revision=" words).getD s.COBRANCH :=
    lastValue_foldl_of_inv (·.sha_key_used = false) s words hused hkept fun t field hfield ht =>
      readField_COBRANCH_of_unused t field ht (hwords field hfield)
  exact ⟨hend.1, hbranch, hend.2⟩

/-- The two halves of a line, before the first upstream and from it on. -/
theorem foldl_readField_append {before later : List Text} (hused : s.sha_key_used = false)
    (hbefore : ∀ word ∈ before, mentionsUpstream word = false)
    (hlater : ∀ word ∈ later.head?, mentionsUpstream word = true) :
    ((before ++ later).foldl readField s).COBRANCH
        = ((lastRead "upstream=" later).or (lastRead "revision=" before)).getD s.COBRANCH
      ∧ ((before ++ later).foldl readField s).COSHAKEY
        = (lastRead "revision=" later).getD s.COSHAKEY := by
  obtain ⟨-, hbranch, hkey⟩ := foldl_readField_of_unused s before hused hbefore
  rw [List.foldl_append]
  generalize before.foldl readField s = t at hbranch hkey
  cases later with
  | nil => exact ⟨hbranch, hkey⟩
  | cons word later =>
    have hfirst := readField_of_upstream t word (hlater word rfl)
    obtain ⟨hup, hrevision⟩ :=
      foldl_readField_of_used { t with sha_key_used := true } (word :: later) rfl
    rw [List.foldl_cons, ← hfirst, ← List.foldl_cons] at hup hrevision
    rw [hup, hrevision, hbranch, hkey]
    constructor
    · cases lastRead "upstream=" (word :: later) <;> rfl
    · rfl

theorem lastRead_upstream_eq (words : List Text) : lastRead "upstream=" words
    = lastRead "upstream=" (words.dropWhile (!mentionsUpstream ·)) := by
  have hnone : lastRead "upstream=" (words.takeWhile (!mentionsUpstream ·)) = none := by
    rw [lastRead, lastValue_eq_none]
    intro word hword
    have hother := List.mem_takeWhile_imp hword
    rw [mentionsUpstream] at hother
    simpa using hother
  conv_lhs => rw [← List.takeWhile_append_dropWhile (p := (!mentionsUpstream ·)) (l := words)]
  rw [lastRead, lastValue_append, ← lastRead, ← lastRead, hnone, Option.or_none]

theorem foldl_readField (hused : s.sha_key_used = false) :
    (words.foldl readField s).COBRANCH = (branchOf words).getD s.COBRANCH
      ∧ (words.foldl readField s).COSHAKEY = (keyOf words).getD s.COSHAKEY := by
  have hbefore : ∀ word ∈ words.takeWhile (!mentionsUpstream ·), mentionsUpstream word = false := by
    intro word hword
    simpa using List.mem_takeWhile_imp hword
  have hlater : ∀ word ∈ (words.dropWhile (!mentionsUpstream ·)).head?,
      mentionsUpstream word = true := by
    intro word hword
    have hfirst := List.head?_dropWhile_not (!mentionsUpstream ·) words
    rw [Option.mem_def] at hword
    rw [hword] at hfirst
    simpa using hfirst
  have hsplit := foldl_readField_append s hused hbefore hlater
  rw [List.takeWhile_append_dropWhile, ← lastRead_upstream_eq] at hsplit
  exact hsplit

end Words

def remoteOf (line : List Text) : Text := (lastRead "remote=" (echo line)).getD (firstRemote line)

def pathOf (left : Text) (line : List Text) : Text := (lastRead "path=" (echo line)).getD left

def isCloned (script : Script) (sites : Sites) (leftPath : Text) (line : List Text) : Bool :=
  isProjectLine line
    && (((location sites script (remoteOf line)).isSome || script.elseIsGood)
      && !script.skipsComment line && !script.skipsRepo (pathOf leftPath line))

section Lines

variable (script : Script) (sites : Sites) (s : Shell) (line : List Text)

theorem readFields_remote : (readFields s line).remote = remoteOf line :=
  foldl_readField_remote _ _

theorem readFields_name :
    (readFields s line).name = (lastRead "name=" (echo line)).getD s.name :=
  foldl_readField_name _ _

theorem readFields_path : (readFields s line).path = pathOf s.path line :=
  foldl_readField_path _ _

theorem readFields_repo_web_location :
    (readFields s line).repo_web_location = s.repo_web_location :=
  foldl_readField_repo_web_location _ _

theorem readFields_COBRANCH :
    (readFields s line).COBRANCH = (branchOf (echo line)).getD s.COBRANCH :=
  (foldl_readField _ _ rfl).1

theorem readFields_COSHAKEY : (readFields s line).COSHAKEY = (keyOf (echo line)).getD [] :=
  (foldl_readField _ _ rfl).2

/-- The call for a line takes from the earlier lines what the line does not mention. -/
theorem manifestLine_calls : (manifestLine script sites s line).2
    = if isCloned script sites s.path line then
        [⟨(location sites script (remoteOf line)).getD s.repo_web_location, pathOf s.path line,
          (lastRead "name=" (echo line)).getD s.name, (branchOf (echo line)).getD s.COBRANCH,
          (keyOf (echo line)).getD []⟩]
      else [] := by
  rw [manifestLine, isCloned]
  cases isProjectLine line with
  | false => rfl
  | true =>
    rw [if_pos rfl, processLine, Bool.true_and]
    simp only [lineIsGood, readFields_remote, readFields_path, readFields_name,
      readFields_repo_web_location, readFields_COBRANCH, readFields_COSHAKEY]
    split <;> rfl

end Lines

def leftBy (read : List Text → Option Text) (lines : List (List Text)) : Option Text :=
  lastValue (fun line => if isProjectLine line then read line else none) lines

section Earlier

variable (script : Script) (sites : Sites) (s : Shell) (lines : List (List Text))

/-- A variable of the loop is left with the last value that a selected line gives it. -/
theorem afterLines_eq {get : Shell → Text} {read : List Text → Option Text}
    (hread : ∀ s line, get (processLine script sites s line).1 = (read line).getD (get s)) :
    get (afterLines script sites s lines) = (leftBy read lines).getD (get s) := by
  apply lastValue_foldl
  intro s line
  rw [manifestLine]
  split
  · exact hread s line
  · rfl

theorem afterLines_path : (afterLines script sites s lines).path
    = (leftBy (fun line => lastRead "path=" (echo line)) lines).getD s.path := by
  apply afterLines_eq
  intro s line
  rw [processLine]
  split <;> exact readFields_path s line

theorem afterLines_COBRANCH : (afterLines script sites s lines).COBRANCH
    = (leftBy (fun line => branchOf (echo line)) lines).getD s.COBRANCH := by
  apply afterLines_eq
  intro s line
  rw [processLine]
  split <;> exact readFields_COBRANCH s line

theorem afterLines_repo_web_location : (afterLines script sites s lines).repo_web_location
    = (leftBy (fun line => location sites script (remoteOf line)) lines).getD s.repo_web_location := by
  apply afterLines_eq
  intro s line
  simp only [processLine, readFields_remote, readFields_repo_web_location]
  split <;> rfl

end Earlier

end Aomp.Cloning
