import Aomp.Cloning.ClonesAsSaid

/-!
# Manifests of ordinary lines

In an ordinary line every attribute that the scripts look for is found where it stands. Its branch and
its key then depend on the order of upstream and revision, and on the branch that is left from before.
-/

namespace Aomp.Cloning

open Foundations

def readKeys : List Text :=
  ["remote".toList, "name".toList, "path".toList, "upstream".toList, "revision".toList]

/-- Nothing else is taken for an attribute that the scripts look for, and its value can be read. -/
structure Project.IsOrdinary (p : Project) : Prop where
  keys : ∀ a ∈ p.attributes, ∀ key ∈ readKeys, key <:+ a.key → a.key = key
  values : ∀ a ∈ p.attributes, '=' ∉ a.value ∧ isEchoOption a.value = false
  unglued : p.glued = true → ∀ a ∈ p.attributes.getLast?, a.key ∉ readKeys

def Project.revisionAfterUpstream (p : Project) : Option Text :=
  valueOf "revision" (p.attributes.dropWhile (·.key ≠ "upstream".toList))

/-- With one equals sign, a key is mentioned at the end of what comes before it. -/
theorem infix_iff_suffix {key u v : Text} (hu : '=' ∉ u) (hv : '=' ∉ v) :
    key ++ ['='] <:+: u ++ '=' :: v ↔ key <:+ u := by
  constructor
  · rintro ⟨x, y, hsplit⟩
    have hcount := congrArg (List.count '=') hsplit
    rw [List.count_append, List.count_append, List.count_append, List.count_append,
      List.count_cons_self, List.count_nil, List.count_cons_self, List.count_eq_zero.mpr hu,
      List.count_eq_zero.mpr hv] at hcount
    have hx : '=' ∉ x ++ key := by
      rw [← List.count_eq_zero, List.count_append]
      omega
    have hwhole {w : Text} (hw : '=' ∉ w) : w.takeWhile (· ≠ '=') = w := by
      rw [List.takeWhile_eq_self_iff]
      intro c hc
      rw [decide_eq_true_eq]
      rintro rfl
      exact hw hc
    have hsame := congrArg (List.takeWhile (· ≠ '=')) hsplit
    rw [← List.append_assoc, List.append_assoc, List.singleton_append,
      takeWhile_append_cons (by decide), takeWhile_append_cons (by decide), hwhole hx,
      hwhole hu] at hsame
    exact ⟨x, hsame⟩
  · rintro ⟨x, rfl⟩
    exact ⟨x, v, by simp⟩

theorem lastValue_eq_valueOf {key : String} {attributes : List Attribute}
    (hkeys : (attributes.map (·.key)).Nodup) :
    lastValue (fun a => if a.key = key.toList then some a.value else none) attributes
      = valueOf key attributes := by
  induction attributes with
  | nil => rfl
  | cons a attributes ih =>
    rw [List.map_cons, List.nodup_cons] at hkeys
    rw [lastValue_cons, ih hkeys.2]
    by_cases ha : a.key = key.toList
    · have hother : valueOf key attributes = none := by
        rw [valueOf, Option.map_eq_none_iff, List.find?_eq_none]
        intro b hb hkey
        have hsame : b.key = a.key := by simpa [ha] using hkey
        exact hkeys.1 (hsame ▸ List.mem_map_of_mem hb)
      rw [hother, if_pos ha]
      simp [valueOf, ha]
    · simp [valueOf, ha]

theorem lastValue_attributeWords {f : Word → Option Text} {g : Attribute → Option Text}
    {glued : Bool} {attributes : List Attribute} (hmark : ∀ m, f (.mark m) = none)
    (hfield : ∀ a closing, Word.field a closing ∈ attributeWords glued attributes →
      f (.field a closing) = g a) :
    lastValue f (attributeWords glued attributes) = lastValue g attributes := by
  fun_induction attributeWords glued attributes with
  | case1 => simp [lastValue, hmark]
  | case2 a hglued => simp [lastValue, hfield]
  | case3 a hglued => simp [lastValue, hfield, hmark]
  | case4 a b attributes ih =>
    have hrest := ih fun a closing h => hfield a closing (List.mem_cons_of_mem _ h)
    rw [lastValue_cons, lastValue_cons, hrest, hfield a none (by simp)]

/-- As `lastValue_attributeWords`, from some word on. -/
theorem lastValue_dropWhile {f : Word → Option Text} {g : Attribute → Option Text}
    {q : Word → Bool} {r : Attribute → Bool} {glued : Bool} {attributes : List Attribute}
    (hmark : ∀ m, f (.mark m) = none)
    (hfield : ∀ a closing, Word.field a closing ∈ attributeWords glued attributes →
      f (.field a closing) = g a ∧ q (.field a closing) = r a) :
    lastValue f ((attributeWords glued attributes).dropWhile q)
      = lastValue g (attributes.dropWhile r) := by
  fun_induction attributeWords glued attributes with
  | case1 =>
    rw [List.dropWhile_cons]
    split <;> simp [lastValue, hmark]
  | case2 a hglued =>
    obtain ⟨hf, hq⟩ := hfield a _ (List.mem_singleton_self _)
    rw [List.dropWhile_cons (p := q), List.dropWhile_cons (p := r), hq]
    split
    · rfl
    · rw [lastValue_cons, lastValue_cons, hf]
      rfl
  | case3 a hglued =>
    obtain ⟨hf, hq⟩ := hfield a none (by simp)
    rw [List.dropWhile_cons (p := q), List.dropWhile_cons (p := r), hq]
    split
    · rw [List.dropWhile_cons]
      split <;> simp [lastValue, hmark]
    · simp [lastValue, hf, hmark]
  | case4 a b attributes ih =>
    obtain ⟨hf, hq⟩ := hfield a none (by simp)
    have hlater : ∀ c closing, Word.field c closing ∈ attributeWords glued (b :: attributes) →
        f (.field c closing) = g c ∧ q (.field c closing) = r c :=
      fun c closing h => hfield c closing (List.mem_cons_of_mem _ h)
    rw [List.dropWhile_cons, List.dropWhile_cons, hq]
    split
    · exact ih hlater
    · rw [lastValue_cons, lastValue_cons, hf,
        lastValue_attributeWords hmark fun c closing h => (hlater c closing h).1]

theorem mem_of_field_mem {a : Attribute} {closing : Option Closing} {glued : Bool}
    {attributes : List Attribute} (h : Word.field a closing ∈ attributeWords glued attributes) :
    a ∈ attributes ∧ (closing.isSome → glued = true ∧ a ∈ attributes.getLast?) := by
  fun_induction attributeWords glued attributes with
  | case1 => simp at h
  | case2 b hglued => simp_all
  | case3 b hglued => simp_all
  | case4 b c attributes ih =>
    rw [List.mem_cons] at h
    obtain h | h := h
    · rw [Word.field.injEq] at h
      simp [h.1, h.2]
    · obtain ⟨hmem, hlast⟩ := ih h
      refine ⟨List.mem_cons_of_mem _ hmem, fun hsome => ?_⟩
      rw [List.getLast?_cons_cons]
      exact hlast hsome

section Said

variable {p : Project} {a : Attribute} {closing : Option Closing} {key : String}

theorem mentions_mark (key : String) (m : Mark) : mentions (key ++ "=") (Word.mark m).text = false := by
  rw [mentions, decide_eq_false_iff_not]
  intro h
  exact absurd (h.subset (by simp)) m.equals_notMem

theorem Project.IsOrdinary.mentions_iff (h : p.IsOrdinary) (key : String)
    (closing : Option Closing) (ha : a ∈ p.attributes) (hkey : key.toList ∈ readKeys) :
    mentions (key ++ "=") (Word.field a closing).text = true ↔ a.key = key.toList := by
  have hvalue : '=' ∉ '"' :: (a.value ++ '"' :: Word.closing closing) := by
    have hclosing := Word.equals_notMem_closing closing
    simp [(h.values a ha).1, hclosing]
  have hlast : (key ++ "=").toList = key.toList ++ ['='] := String.toList_append
  rw [mentions, decide_eq_true_eq, hlast, Word.text, infix_iff_suffix a.equals_notMem_key hvalue]
  constructor
  · exact h.keys a ha _ hkey
  · intro hsame
    rw [hsame]

theorem Project.IsOrdinary.value_eq (h : p.IsOrdinary)
    (hmem : Word.field a closing ∈ attributeWords p.glued p.attributes) (hkey : a.key ∈ readKeys) :
    (Word.field a closing).value = a.value := by
  obtain ⟨ha, hlast⟩ := mem_of_field_mem hmem
  have hclosing : closing.isSome = false := by
    rw [Bool.eq_false_iff]
    intro hsome
    exact h.unglued (hlast hsome).1 a (hlast hsome).2 hkey
  rw [Word.value, if_neg]
  simp [(h.values a ha).1, (h.values a ha).2, hclosing]

theorem Project.IsOrdinary.read_eq (h : p.IsOrdinary) (key : String) (hkey : key.toList ∈ readKeys)
    (hmem : Word.field a closing ∈ attributeWords p.glued p.attributes) :
    (if mentions (key ++ "=") (Word.field a closing).text then some (Word.field a closing).value
      else none) = if a.key = key.toList then some a.value else none := by
  have hmentions := h.mentions_iff key closing (mem_of_field_mem hmem).1 hkey
  by_cases hsame : a.key = key.toList
  · rw [if_pos (hmentions.mpr hsame), if_pos hsame, h.value_eq hmem (hsame ▸ hkey)]
  · rw [if_neg (fun hmention => hsame (hmentions.mp hmention)), if_neg hsame]

theorem Project.IsOrdinary.said_eq (h : p.IsOrdinary) (key : String) (hkey : key.toList ∈ readKeys) :
    said (key ++ "=") p.words = valueOf key p.attributes := by
  rw [said, Project.words, lastValue_cons, mentions_mark, ← lastValue_eq_valueOf p.keys_nodup]
  rw [lastValue_attributeWords (g := fun a => if a.key = key.toList then some a.value else none)]
  · exact Option.or_none
  · intro m
    rw [mentions_mark]
    rfl
  · intro a closing hmem
    exact h.read_eq key hkey hmem

theorem Project.IsOrdinary.saidKey_eq (h : p.IsOrdinary) :
    saidKey p.words = p.revisionAfterUpstream := by
  have hmark : saysUpstream (.mark Project.tag) = false := by decide
  have hnodup : ((p.attributes.dropWhile (·.key ≠ "upstream".toList)).map (·.key)).Nodup :=
    p.keys_nodup.sublist ((List.dropWhile_sublist _).map _)
  rw [saidKey, said, Project.words, List.dropWhile_cons_of_pos (by simp [hmark]),
    Project.revisionAfterUpstream, ← lastValue_eq_valueOf hnodup]
  apply lastValue_dropWhile
  · intro m
    have hnone : mentions "revision=" (Word.mark m).text = false := mentions_mark "revision" m
    rw [hnone]
    rfl
  · intro a closing hmem
    have hupstream : saysUpstream (.field a closing) = true ↔ a.key = "upstream".toList :=
      h.mentions_iff "upstream" closing (mem_of_field_mem hmem).1 (by decide)
    constructor
    · exact h.read_eq "revision" (by decide) hmem
    · rw [Bool.eq_iff_iff, Bool.not_eq_true', decide_eq_true_eq, ne_eq, ← hupstream, Bool.not_eq_true]

end Said

/-- Where the branch and the key come from: the revision comes after the upstream, an upstream without a
revision is the default one, and the branch that earlier lines leave is the default one. -/
def Project.IsInOrder (leftBranch defaultRevision : Text) (p : Project) : Prop :=
  match p.upstream, p.revision with
  | some _, some revision => p.revisionAfterUpstream.getD [] = revision
  | some upstream, none => upstream = defaultRevision
  | none, some _ => True
  | none, none => leftBranch = defaultRevision

theorem Project.revisionAfterUpstream_of_upstream {p : Project} (h : p.upstream = none) :
    p.revisionAfterUpstream = none := by
  have hall : p.attributes.dropWhile (·.key ≠ "upstream".toList) = [] := by
    rw [List.dropWhile_eq_nil_iff]
    rw [upstream, valueOf, Option.map_eq_none_iff, List.find?_eq_none] at h
    intro a ha
    have hother := h a ha
    rw [decide_eq_true_eq] at hother
    exact decide_eq_true hother
  rw [revisionAfterUpstream, hall]
  rfl

theorem Project.revisionAfterUpstream_of_revision {p : Project} (h : p.revision = none) :
    p.revisionAfterUpstream = none := by
  rw [revision, valueOf, Option.map_eq_none_iff, List.find?_eq_none] at h
  rw [revisionAfterUpstream, valueOf, Option.map_eq_none_iff, List.find?_eq_none]
  intro a ha
  exact h a ((List.dropWhile_sublist _).subset ha)

section Ordinary

variable {script : Script} {sites : Sites} {l : Left} {defaultRevision : Text} {p : Project}

theorem Project.IsOrdinary.saidBranch_eq (h : p.IsOrdinary) (hupstream : p.upstream = none) :
    saidBranch p.words = p.revision := by
  have hsaid : said "upstream=" p.words = p.upstream := h.said_eq "upstream" (by decide)
  rw [hupstream] at hsaid
  rw [saidBranch_of_upstream hsaid]
  exact h.said_eq "revision" (by decide)

theorem Project.IsOrdinary.branch_iff (h : p.IsOrdinary) (leftBranch defaultRevision : Text) :
    ((match p.upstream, p.revision with
      | some upstream, some _ => said "upstream=" p.words = some upstream
      | some _, none => said "upstream=" p.words = some defaultRevision
      | none, some revision => saidBranch p.words = some revision
      | none, none => (saidBranch p.words).getD leftBranch = defaultRevision)
        ∧ (saidKey p.words).getD [] = p.key) ↔ p.IsInOrder leftBranch defaultRevision := by
  have hsaid : said "upstream=" p.words = p.upstream := h.said_eq "upstream" (by decide)
  rw [h.saidKey_eq, Project.IsInOrder, Project.key, hsaid]
  cases hupstream : p.upstream with
  | some upstream =>
    cases hrevision : p.revision with
    | some revision => simp
    | none => simp [p.revisionAfterUpstream_of_revision hrevision]
  | none =>
    rw [h.saidBranch_eq hupstream, p.revisionAfterUpstream_of_upstream hupstream]
    cases hrevision : p.revision <;> simp

theorem Project.IsOrdinary.readsOwn_iff (h : p.IsOrdinary) :
    ReadsOwn script sites l defaultRevision p
      ↔ (location sites script p.remote).isSome ∧ p.IsInOrder l.branch defaultRevision := by
  have hremote : said "remote=" p.words = some p.remote :=
    (h.said_eq "remote" (by decide)).trans p.remote_eq
  have hbranch := h.branch_iff l.branch defaultRevision
  constructor
  · intro hreads
    exact ⟨hreads.known, hbranch.mp ⟨hreads.branch, hreads.key⟩⟩
  · intro hreads
    obtain ⟨site, hsite⟩ := Option.isSome_iff_exists.mp hreads.1
    constructor
    · exact hreads.1
    · rw [hremote, Option.bind_some]
      cases script with
      | cloneAomp => rfl
      | cloneRocmlibs => rw [siteOf, hsite, Option.getD_some]
    · exact (h.said_eq "name" (by decide)).trans p.name_eq
    · exact (h.said_eq "path" (by decide)).trans p.path_eq
    · exact (hbranch.mpr hreads.2).1
    · exact (hbranch.mpr hreads.2).2

/-- A manifest whose projects are ordinary lines with known remotes, none of them aomp, and whose other
lines do not name a project. -/
structure Manifest.IsOrdinary (script : Script) (sites : Sites) (m : Manifest) : Prop where
  projects : ∀ p, Line.project p ∈ m.lines → p.IsOrdinary ∧ p.IsListed script sites
  others : ∀ words, Line.other words ∈ m.lines → isProjectLine (Line.other words).text = false

/-- An ordinary manifest is cloned as it says exactly when its projects are in order. -/
theorem Manifest.IsOrdinary.clonesAsSaid_iff_inOrder {m : Manifest} (h : m.IsOrdinary script sites)
    (s : Shell) :
    ClonesAsSaid script sites s m ↔ ∀ before p after, m.lines = before ++ Line.project p :: after →
      p.IsInOrder (left script sites s (before.map Line.text)).branch m.defaultRevision := by
  constructor
  · intro hsaid before p after hm
    have hmem : Line.project p ∈ m.lines := by simp [hm]
    obtain ⟨hordinary, hlisted⟩ := h.projects p hmem
    have hright := (areRight_iff _).mp (hsaid before _ after hm)
    exact (hordinary.readsOwn_iff.mp (hright.1 hlisted)).2
  · intro horder before line after hm
    have hmem : line ∈ m.lines := by simp [hm]
    apply (areRight_iff line).mpr
    cases line with
    | project p =>
      obtain ⟨hordinary, hlisted⟩ := h.projects p hmem
      have hreads := hordinary.readsOwn_iff.mpr ⟨hlisted.1, horder before p after hm⟩
      exact ⟨fun _ => hreads, fun _ => Or.inr hreads⟩
    | other words => exact Or.inl (h.others words hmem)

end Ordinary

end Aomp.Cloning
