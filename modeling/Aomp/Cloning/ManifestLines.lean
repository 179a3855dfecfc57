import Aomp.Cloning.CloneScripts

/-!
# The lines of a manifest

A manifest has one project in a line. Its attributes come in any order, the values in double quotes and
without blanks; lines may be commented out.
-/

namespace Aomp.Cloning

open Foundations

def isMeta (c : Char) : Bool := c ∈ " \t\n\"'`$\\*?[]|&;()<>".toList

def isKeyChar (c : Char) : Bool := !isMeta c && c ≠ '='

def isMarkChar (c : Char) : Bool := c ∉ [' ', '\t', '\n', '\\', '*', '[', '=']

def isClosingChar (c : Char) : Bool := (!isMeta c || c ∈ ['<', '>', '?']) && c ≠ '='

/-- An attribute. Its value may hold an equals sign. -/
structure Attribute where
  key : Text
  value : Text
  key_plain : key.all isKeyChar
  value_plain : value.all (!isMeta ·)

/-- A word beside the attributes, such as the name of an element or a word of a comment. -/
structure Mark where
  text : Text
  plain : text.all isMarkChar

/-- What ends an element or a comment and is glued to an attribute. -/
structure Closing where
  text : Text
  plain : text.all isClosingChar
  closes : '>' ∈ text

/-- A word of a line. -/
inductive Word
  | mark (m : Mark)
  | field (a : Attribute) (glued : Option Closing)

namespace Word

def closing : Option Closing → Text
  | none => []
  | some c => c.text

/-- A word as it stands in the file. -/
def text : Word → Text
  | mark m => m.text
  | field a glued => a.key ++ '=' :: '"' :: (a.value ++ '"' :: closing glued)

/-- What can be read of an attribute: nothing if the value holds an equals sign or looks like an option
of `echo`, and nothing if something is glued to it. -/
def value : Word → Text
  | mark _ => []
  | field a glued => if '=' ∈ a.value ∨ glued.isSome ∨ isEchoOption a.value then [] else a.value

end Word

theorem Attribute.value_not_meta (a : Attribute) : ∀ c ∈ a.value, isMeta c = false := by
  simpa using a.value_plain

theorem Attribute.equals_notMem_key (a : Attribute) : '=' ∉ a.key :=
  fun h => absurd (List.all_eq_true.mp a.key_plain '=' h) (by decide)

theorem Mark.equals_notMem (m : Mark) : '=' ∉ m.text :=
  fun h => absurd (List.all_eq_true.mp m.plain '=' h) (by decide)

theorem ne_quote_of_plain {c : Char} (hc : isMeta c = false) : c ≠ '"' := by
  rintro rfl
  simp [isMeta] at hc

theorem evalWord_quoted {value : Text} (hvalue : ∀ c ∈ value, isMeta c = false) (rest : Text) :
    evalWord true (value ++ '"' :: rest) = (evalWord false rest).map (value ++ ·) := by
  induction value with
  | nil => simp [evalWord]
  | cons c value ih =>
    rw [List.forall_mem_cons] at hvalue
    rw [List.cons_append, evalWord, if_neg (ne_quote_of_plain hvalue.1), ih hvalue.2]
    simp [Function.comp_def]

theorem evalWord_open {value : Text} (hvalue : ∀ c ∈ value, isMeta c = false) :
    evalWord true value = none := by
  induction value with
  | nil => rfl
  | cons c value ih =>
    rw [List.forall_mem_cons] at hvalue
    rw [evalWord, if_neg (ne_quote_of_plain hvalue.1), ih hvalue.2]
    rfl

theorem evalWord_closing (c : Closing) : evalWord false c.text = none := by
  have hplain := List.all_eq_true.mp c.plain
  have hcloses := c.closes
  generalize c.text = text at hplain hcloses
  induction text with
  | nil => simp at hcloses
  | cons d text ih =>
    rw [List.forall_mem_cons] at hplain
    have hquote : d ≠ '"' := by
      rintro rfl
      exact absurd hplain.1 (by decide)
    rw [evalWord, if_neg hquote]
    by_cases hgt : d = '>'
    · simp [hgt]
    · have hrest := ih hplain.2 (by simpa [Ne.symm hgt] using hcloses)
      simp [hgt, hrest]

theorem cut2_attribute {key rest : Text} (hkey : '=' ∉ key) :
    cut2 (key ++ '=' :: rest) = rest.takeWhile (· ≠ '=') := by
  have hdrop : (key ++ '=' :: rest).dropWhile (· ≠ '=') = '=' :: rest := by
    rw [List.dropWhile_append_of_pos]
    · simp
    · intro c hc
      simpa using fun h : c = '=' => hkey (h ▸ hc)
  rw [cut2, if_pos (by simp), hdrop]
  rfl

theorem Word.equals_notMem_closing (glued : Option Closing) : '=' ∉ Word.closing glued := by
  cases glued with
  | none => simp [Word.closing]
  | some c => exact fun h => absurd (List.all_eq_true.mp c.plain '=' h) (by decide)

theorem evalWord_field (a : Attribute) (glued : Option Closing) :
    evalWord false ('"' :: (a.value ++ '"' :: Word.closing glued))
      = if glued.isSome then none else some a.value := by
  rw [evalWord, if_pos rfl, Bool.not_false, evalWord_quoted a.value_not_meta]
  cases glued with
  | none => simp [Word.closing, evalWord]
  | some c => simp [Word.closing, evalWord_closing]

/-- The scripts read the value of an attribute, or nothing. -/
theorem fieldValue_field (a : Attribute) (glued : Option Closing) :
    fieldValue (Word.field a glued).text = (Word.field a glued).value := by
  rw [fieldValue, Word.text, cut2_attribute a.equals_notMem_key, evalEcho, Word.value,
    List.takeWhile_cons_of_pos (by decide)]
  by_cases hvalue : '=' ∈ a.value
  · -- the value is cut before its closing quote
    have hcut : (a.value ++ '"' :: Word.closing glued).takeWhile (· ≠ '=')
        = a.value.takeWhile (· ≠ '=') := by
      obtain ⟨before, after, hsplit⟩ := List.append_of_mem hvalue
      rw [hsplit, List.append_assoc, List.cons_append, takeWhile_append_cons (by decide),
        takeWhile_append_cons (by decide)]
    have hplain : ∀ c ∈ a.value.takeWhile (· ≠ '='), isMeta c = false :=
      fun c hc => a.value_not_meta c ((List.takeWhile_sublist _).subset hc)
    rw [hcut, evalWord, if_pos rfl, Bool.not_false, evalWord_open hplain, if_pos (Or.inl hvalue)]
  · have hwhole : (a.value ++ '"' :: Word.closing glued).takeWhile (· ≠ '=')
        = a.value ++ '"' :: Word.closing glued := by
      rw [List.takeWhile_eq_self_iff]
      intro c hc
      have hclosing := Word.equals_notMem_closing glued
      rw [decide_eq_true_eq]
      rintro rfl
      simp_all
    rw [hwhole, evalWord_field]
    cases glued <;> simp [hvalue]

def valueOf (key : String) (attributes : List Attribute) : Option Text :=
  (attributes.find? (·.key = key.toList)).map (·.value)

def attributeWords (glued : Bool) : List Attribute → List Word
  | [] => [.mark ⟨"/>".toList, by decide⟩]
  | [a] =>
    if glued then [.field a (some ⟨"/>".toList, by decide, by decide⟩)]
    else [.field a none, .mark ⟨"/>".toList, by decide⟩]
  | a :: b :: attributes => .field a none :: attributeWords glued (b :: attributes)

/-- An element of a project, with the attributes that every one has. -/
structure Project where
  attributes : List Attribute
  glued : Bool
  remote : Text
  name : Text
  path : Text
  keys_nodup : (attributes.map (·.key)).Nodup
  remote_eq : valueOf "remote" attributes = some remote
  name_eq : valueOf "name" attributes = some name
  path_eq : valueOf "path" attributes = some path

namespace Project

def tag : Mark := ⟨"<project".toList, by decide⟩

def words (p : Project) : List Word := .mark tag :: attributeWords p.glued p.attributes

def upstream (p : Project) : Option Text := valueOf "upstream" p.attributes

def revision (p : Project) : Option Text := valueOf "revision" p.attributes

end Project

/-- The element with the default revision. -/
structure Default where
  attributes : List Attribute
  glued : Bool

def Default.words (d : Default) : List Word :=
  .mark ⟨"<default".toList, by decide⟩ :: attributeWords d.glued d.attributes

/-- A comment over one line or more, with whatever it holds. -/
structure Comment where
  lines : List (List Word)
  opens : ∃ word ∈ lines.flatten.head?, "<!--".toList <+: word.text
  closes : ∃ word ∈ lines.flatten.getLast?, "-->".toList <:+ word.text
  inside : ∀ word ∈ lines.flatten.dropLast, ¬ "-->".toList <:+: word.text

/-- A line without a project or a comment. -/
structure OtherLine where
  words : List Word
  plain : ∀ word ∈ words, ¬ "<project".toList <:+: word.text ∧ ¬ "<!--".toList <:+: word.text

inductive Entry
  | project (p : Project)
  | default (d : Default)
  | comment (c : Comment)
  | other (o : OtherLine)

/-- A line of a manifest is that of a project, or it is not, as a line within a comment. -/
inductive Line
  | project (p : Project)
  | other (words : List Word)

namespace Line

def words : Line → List Word
  | project p => p.words
  | other words => words

/-- The line as the scripts read it. -/
def text (line : Line) : List Text := line.words.map Word.text

end Line

def Entry.lines : Entry → List Line
  | project p => [.project p]
  | default d => [.other d.words]
  | comment c => c.lines.map .other
  | other o => [.other o.words]

def Entry.revision : Entry → Option Text
  | default d => valueOf "revision" d.attributes
  | _ => none

abbrev Manifest := List Entry

namespace Manifest

def lines (m : Manifest) : List Line := m.flatMap Entry.lines

/-- The revision of the default element. -/
def defaultRevision (m : Manifest) : Text := (m.findSome? Entry.revision).getD []

end Manifest

namespace Project

variable (script : Script) (sites : Sites) (defaultRevision : Text) (p : Project)

def branch : Text :=
  match p.upstream, p.revision with
  | some upstream, some _ => upstream
  | _, some revision => revision
  | _, none => defaultRevision

def key : Text :=
  match p.upstream, p.revision with
  | some _, some revision => revision
  | _, _ => []

/-- The call for a project, if its remote is known. -/
def call : Option Call :=
  (location sites script p.remote).map fun site =>
    ⟨site, p.path, p.name, p.branch defaultRevision, p.key⟩

/-- The remote of the project is known, and the project is not aomp, which is skipped on purpose. -/
def IsListed : Prop := (location sites script p.remote).isSome ∧ p.path ≠ "aomp".toList

end Project

namespace Line

variable (script : Script) (sites : Sites) (defaultRevision : Text)

/-- The call that the line says. -/
def call : Line → Option Call
  | project p => p.call script sites defaultRevision
  | other _ => none

def IsListed : Line → Prop
  | project p => p.IsListed script sites
  | other _ => False

end Line

/-- The calls for a line are right: none but its own one, and that one if the line is listed. -/
structure AreRight (script : Script) (sites : Sites) (defaultRevision : Text) (line : Line)
    (calls : List Call) : Prop where
  own : ∀ call ∈ calls, line.call script sites defaultRevision = some call
  once : line.IsListed script sites → calls.length = 1

/-- Each repository is cloned as its own line says. -/
def ClonesAsSaid (script : Script) (sites : Sites) (s : Shell) (m : Manifest) : Prop :=
  ∀ before line after, m.lines = before ++ line :: after →
    AreRight script sites m.defaultRevision line
      (callsAt script sites s (before.map Line.text) line.text)

def said (pattern : String) (words : List Word) : Option Text :=
  lastValue (fun word => if mentions pattern word.text then some word.value else none) words

def saysUpstream (word : Word) : Bool := mentionsUpstream word.text

def saidBranch (words : List Word) : Option Text :=
  (said "upstream=" words).or (said "revision=" (words.takeWhile (!saysUpstream ·)))

def saidKey (words : List Word) : Option Text :=
  said "revision=" (words.dropWhile (!saysUpstream ·))

theorem fieldValue_of_mentions {pattern : String} (hpattern : '=' ∈ pattern.toList) {word : Word}
    (h : mentions pattern word.text = true) : fieldValue word.text = word.value := by
  cases word with
  | mark m =>
    have hequals : '=' ∈ m.text := (of_decide_eq_true h).subset hpattern
    exact absurd hequals m.equals_notMem
  | field a glued => exact fieldValue_field a glued

theorem lastRead_text {pattern : String} (hpattern : '=' ∈ pattern.toList) (words : List Word) :
    lastRead pattern (words.map Word.text) = said pattern words := by
  rw [lastRead, lastValue_map, said]
  congr 1
  funext word
  rw [Function.comp_apply]
  split
  next h => rw [fieldValue_of_mentions hpattern h]
  next => rfl

theorem branchOf_text (words : List Word) : branchOf (words.map Word.text) = saidBranch words := by
  rw [branchOf, saidBranch, lastRead_text (by decide), List.takeWhile_map, lastRead_text (by decide)]
  rfl

theorem keyOf_text (words : List Word) : keyOf (words.map Word.text) = saidKey words := by
  rw [keyOf, saidKey, List.dropWhile_map, lastRead_text (by decide)]
  rfl

end Aomp.Cloning
