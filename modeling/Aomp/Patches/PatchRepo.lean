import Aomp.Foundations.LinePatch

/-!
# Patching a component and taking the patches off again

`patchrepo` applies the patches that the control file lists for a component, and skips the
ones it finds applied; `removepatch` reverses those it finds applied. Both walk the list
from its front.
-/
namespace Aomp.Patches

open Foundations

variable {File Line : Type} [DecidableEq File] [DecidableEq Line]

abbrev Tree (File Line : Type) := File → List Line

abbrev Patch (File Line : Type) := List (File × Hunk Line)

namespace Patch

variable (p : Patch File Line) (t : Tree File Line)

def hunksOf (f : File) : List (Hunk Line) := (p.filter fun h => h.1 = f).map Prod.snd

/-- `patch -R` -/
def reversed : Patch File Line := List.map (fun h => (h.1, h.2.reverse)) p

/-- The tree that `patch` leaves; `none` is a failing `--dry-run`. -/
def apply : Option (Tree File Line) :=
  if ∀ f ∈ p.map Prod.fst, (applyHunks (p.hunksOf f) (t f)).isSome then
    some fun f => (applyHunks (p.hunksOf f) (t f)).getD (t f)
  else none

end Patch

/-- A character of the default `IFS`. -/
def isIFS (c : Char) : Bool := c = ' ' || c = '\t' || c = '\n'

def words (line : List Char) : List (List Char) := (line.splitOnP isIFS).filter (· ≠ [])

/-- `read` strips the blanks at both ends of a line. -/
def strip (line : List Char) : List Char :=
  ((line.dropWhile isIFS).reverse.dropWhile isIFS).reverse

/-- `getpatchlist`, where `key` is the name before the colon: what follows it in the first line
that starts with the name, a colon and a blank. -/
def getpatchlist (key : List Char) : List (List Char) → List Char
  | [] => []
  | line :: lines =>
    match (key ++ [':']).isPrefixOf? (strip line) with
    | some (c :: patches) => if c.isWhitespace then patches else getpatchlist key lines
    | _ => getpatchlist key lines

/-- What the two functions read: the base name of the component's directory, the lines of
`AOMP_PATCH_CONTROL_FILE` and the patch files beside it. -/
structure Setup (File Line : Type) where
  /-- `AOMP_APPLY_ROCM_PATCHES` is 1 and the directory exists. -/
  enabled : Bool
  basedir : List Char
  control : List (List Char)
  patchfile : List Char → Option (Patch File Line)

variable (s : Setup File Line)

/-- `$patches`; a second argument with "postinstall" in it replaces the base name. -/
def Setup.patches (arg : List Char) : List (List Char) :=
  words (getpatchlist (if "postinstall".toList <:+: arg then arg else s.basedir) s.control)

/-- The loop of `patchrepo`; `error` is `exit 1`, with the tree as it is then. -/
def applyLoop : List (List Char) → Tree File Line → Except (Tree File Line) (Tree File Line)
  | [], t => .ok t
  | patch :: patches, t =>
    match s.patchfile patch with
    | none => .error t
    | some p =>
      match p.apply t with
      | some t' => applyLoop patches t'
      | none => if (p.reversed.apply t).isSome then applyLoop patches t else .error t

def patchrepo (arg : List Char) (t : Tree File Line) : Except (Tree File Line) (Tree File Line) :=
  if s.enabled then applyLoop s (s.patches arg) t else .ok t

/-- The loop of `removepatch`. -/
def reverseLoop : List (List Char) → Tree File Line → Tree File Line
  | [], t => t
  | patch :: patches, t =>
    reverseLoop patches ((((s.patchfile patch).bind fun p => p.reversed.apply t)).getD t)

def removepatch (t : Tree File Line) : Tree File Line :=
  if s.enabled then reverseLoop s (s.patches []) t else t

/-- A call that a build script makes for the component. -/
inductive Call
  | patchrepo
  | removepatch
  deriving DecidableEq

/-- Calls in a row; the first `exit 1` ends them. -/
def runCalls : List Call → Tree File Line → Except (Tree File Line) (Tree File Line)
  | [], t => .ok t
  | .patchrepo :: calls, t => (patchrepo s [] t).bind (runCalls calls)
  | .removepatch :: calls, t => runCalls calls (removepatch s t)

/-- The listed patches applied in order. -/
def applyAll : List (Patch File Line) → Tree File Line → Option (Tree File Line)
  | [], t => some t
  | p :: ps, t => (p.apply t).bind (applyAll ps)

/-- The tree that the last of the calls should leave. -/
def expected (clean patched : Tree File Line) (calls : List Call) : Tree File Line :=
  match calls.getLast? with
  | some .patchrepo => patched
  | some .removepatch | none => clean

section

variable {p : Patch File Line} {t t' : Tree File Line} {i : ℕ}
  {tpl : File → Template Line}

omit [DecidableEq Line] in
theorem Patch.hunksOf_reversed (p : Patch File Line) (f : File) :
    Patch.hunksOf p.reversed f = (Patch.hunksOf p f).map Hunk.reverse := by
  induction p with
  | nil => rfl
  | cons h p ih =>
    unfold Patch.hunksOf Patch.reversed at ih ⊢
    by_cases hf : h.1 = f
    · simpa [hf] using ih
    · simpa [hf] using ih

theorem Patch.applyHunks_of_apply (h : p.apply t = some t') (f : File) :
    applyHunks (p.hunksOf f) (t f) = some (t' f) := by
  unfold Patch.apply at h
  split_ifs at h with hall
  rw [← Option.some.inj h]
  by_cases hf : f ∈ p.map Prod.fst
  · obtain ⟨xs, hxs⟩ := Option.isSome_iff_exists.mp (hall f hf)
    simp [hxs]
  · have hnil : p.hunksOf f = [] := by
      unfold Patch.hunksOf
      rw [List.map_eq_nil_iff, List.filter_eq_nil_iff]
      intro h hh heq
      exact hf (List.mem_map.mpr ⟨h, hh, of_decide_eq_true heq⟩)
    simp [hnil, applyHunks, replaceHunks]

/-- The tree in which exactly the patches in `applied` are. -/
def renderTree (applied : ℕ → Bool) (tpl : File → Template Line) : Tree File Line :=
  fun f => Template.render applied (tpl f)

theorem Patch.apply_eq_of_replaceHunks (h : (p.apply t).isSome)
    (hreplace : ∀ f, (∀ k ∈ p.hunksOf f, AtMostOnce k.old (t f)) →
      replaceHunks (p.hunksOf f) (t f) = some (t' f)) : p.apply t = some t' := by
  obtain ⟨u, hu⟩ := Option.isSome_iff_exists.mp h
  rw [hu]
  congr 1
  funext f
  have hf := Patch.applyHunks_of_apply hu f
  have hsome : (applyHunks (p.hunksOf f) (t f)).isSome := by
    rw [hf]
    rfl
  rw [applyHunks_eq _ _ hsome, hreplace f (atMostOnce_of_applyHunks hsome)] at hf
  exact (Option.some.inj hf).symm

theorem Patch.apply_renderTree (applied : ℕ → Bool)
    (hcovers : ∀ f, Template.Covers i (p.hunksOf f) (tpl f))
    (hi : applied i = false) (h : (p.apply (renderTree applied tpl)).isSome) :
    p.apply (renderTree applied tpl) = some (renderTree (Function.update applied i true) tpl) :=
  Patch.apply_eq_of_replaceHunks h fun f honce => (hcovers f).replaceHunks applied hi honce

theorem Patch.reversed_apply_renderTree (applied : ℕ → Bool)
    (hcovers : ∀ f, Template.Covers i (p.hunksOf f) (tpl f))
    (hi : applied i = true) (h : (p.reversed.apply (renderTree applied tpl)).isSome) :
    p.reversed.apply (renderTree applied tpl) =
      some (renderTree (Function.update applied i false) tpl) := by
  apply Patch.apply_eq_of_replaceHunks h
  intro f honce
  rw [Patch.hunksOf_reversed] at honce ⊢
  exact (hcovers f).replaceHunks_reverse hi fun k hk => honce k.reverse (List.mem_map_of_mem hk)

end

/-- The patches from `i` on, of `n`. -/
def fromOn (i n j : ℕ) : Bool := i ≤ j && j < n

/-- The listed patches touch separate places: in the template of each file the hunks of a patch
lie around places of its own. And the dry runs tell whether a patch is applied: in the patched
tree no patch applies and each applies in reverse, in the clean tree none applies in reverse,
and in the tree with the patches from the `i`-th on, the `i`-th applies in reverse. -/
structure Separate (ps : List (Patch File Line)) (clean patched : Tree File Line)
    (tpl : File → Template Line) : Prop where
  clean_eq : renderTree (fun _ => false) tpl = clean
  covers : ∀ (i : ℕ) (p : Patch File Line), ps[i]? = some p →
    ∀ f, Template.Covers i (p.hunksOf f) (tpl f)
  applied : ∀ p ∈ ps, p.apply patched = none ∧ (p.reversed.apply patched).isSome
  unapplied : ∀ p ∈ ps, p.reversed.apply clean = none
  removable : ∀ (i : ℕ) (p : Patch File Line), ps[i]? = some p →
    (p.reversed.apply (renderTree (fromOn i ps.length) tpl)).isSome

namespace Separate

variable {s : Setup File Line} {ps : List (Patch File Line)} {clean patched : Tree File Line}
  {tpl : File → Template Line}

/-- Applying the list in order takes the template from no patch to all of them. -/
theorem patched_eq (h : Separate ps clean patched tpl) (hall : applyAll ps clean = some patched) :
    patched = renderTree (fromOn 0 ps.length) tpl := by
  have hgo : ∀ qs i, (∀ j q, qs[j]? = some q → ps[i + j]? = some q) → ∀ t,
      applyAll qs (renderTree (fromOn 0 i) tpl) = some t →
        t = renderTree (fromOn 0 (i + qs.length)) tpl := by
    intro qs
    induction qs with
    | nil =>
      intro i _ t ht
      exact (Option.some.inj ht).symm
    | cons q qs ih =>
      intro i hqs t ht
      obtain ⟨t', hq, ht⟩ := Option.bind_eq_some_iff.mp ht
      have hstep := Patch.apply_renderTree (fromOn 0 i) (h.covers i q (hqs 0 q rfl))
        (by simp [fromOn]) (by rw [hq]; rfl)
      have hnext : Function.update (fromOn 0 i) i true = fromOn 0 (i + 1) := by
        funext j
        by_cases hj : j = i
        · simp [hj, fromOn]
        · have hlt : j < i ↔ j < i + 1 := by omega
          simp [Function.update_of_ne hj, fromOn, hlt]
      rw [hq, hnext] at hstep
      rw [Option.some.inj hstep] at ht
      have hrest := ih (i + 1) (fun j r hr => by
        rw [Nat.add_assoc, Nat.add_comm 1]
        exact hqs (j + 1) r hr) t ht
      rw [hrest, List.length_cons, Nat.add_assoc, Nat.add_comm 1]
  have hzero : clean = renderTree (fromOn 0 0) tpl := by
    rw [← h.clean_eq]
    congr 1
  rw [hzero] at hall
  simpa using hgo ps 0 (by simp) patched hall

end Separate

section

variable {s : Setup File Line} {names : List (List Char)} {ps : List (Patch File Line)}
  {t t' clean patched : Tree File Line} {tpl : File → Template Line}

/-- `ps` are the patch files of the names. -/
abbrev Listed (s : Setup File Line) (names : List (List Char)) (ps : List (Patch File Line)) : Prop :=
  List.Forall₂ (fun name p => s.patchfile name = some p) names ps

theorem applyLoop_of_applyAll (hlist : Listed s names ps) (hall : applyAll ps t = some t') :
    applyLoop s names t = .ok t' := by
  induction hlist generalizing t with
  | nil => rw [applyLoop, Option.some.inj hall]
  | cons hfile _ ih =>
    obtain ⟨u, hu, hrest⟩ := Option.bind_eq_some_iff.mp hall
    rw [applyLoop, hfile]
    simp only [hu]
    exact ih hrest

theorem applyLoop_of_applied (hlist : Listed s names ps)
    (happlied : ∀ p ∈ ps, p.apply t = none ∧ (p.reversed.apply t).isSome) :
    applyLoop s names t = .ok t := by
  induction hlist with
  | nil => rfl
  | cons hfile _ ih =>
    obtain ⟨hnone, hsome⟩ := happlied _ List.mem_cons_self
    rw [applyLoop, hfile]
    simp only [hnone, hsome, if_true]
    exact ih fun p hp => happlied p (List.mem_cons_of_mem _ hp)

theorem reverseLoop_of_unapplied (hlist : Listed s names ps)
    (hunapplied : ∀ p ∈ ps, p.reversed.apply t = none) : reverseLoop s names t = t := by
  induction hlist with
  | nil => rfl
  | cons hfile _ ih =>
    rw [reverseLoop, hfile, Option.bind_some, hunapplied _ List.mem_cons_self, Option.getD_none]
    exact ih fun p hp => hunapplied p (List.mem_cons_of_mem _ hp)

theorem Separate.reverseLoop (h : Separate ps clean patched tpl) (i : ℕ) {qs : List (Patch File Line)}
    (hqs : ∀ j q, qs[j]? = some q → ps[i + j]? = some q) (hlen : i + qs.length = ps.length)
    (hlist : Listed s names qs) :
    reverseLoop s names (renderTree (fromOn i ps.length) tpl) = clean := by
  induction hlist generalizing i with
  | nil =>
    rw [Patches.reverseLoop, ← h.clean_eq]
    congr 1
    funext j
    simp only [List.length_nil] at hlen
    simp [fromOn]
    omega
  | @cons _ q _ qs hfile _ ih =>
    have hq := hqs 0 q rfl
    rw [List.length_cons] at hlen
    have hstep := Patch.reversed_apply_renderTree (fromOn i ps.length) (h.covers i q hq)
      (by simp [fromOn]; omega) (h.removable i q hq)
    have hnext : Function.update (fromOn i ps.length) i false = fromOn (i + 1) ps.length := by
      funext j
      by_cases hj : j = i
      · subst hj
        simp [fromOn, show ¬ j + 1 ≤ j by omega]
      · have hle : i ≤ j ↔ i + 1 ≤ j := by omega
        simp [Function.update_of_ne hj, fromOn, hle]
    rw [Patches.reverseLoop, hfile, Option.bind_some, hstep, Option.getD_some, hnext]
    refine ih (i + 1) (fun j r hr => ?_) (by omega)
    rw [Nat.add_assoc, Nat.add_comm 1]
    exact hqs (j + 1) r hr

end

/-- For separate patches, after any calls the tree is exactly the clean tree with all listed
patches applied, or the clean tree, as the last call wants it; no call exits. -/
theorem patches_inverse {s : Setup File Line} {ps : List (Patch File Line)}
    {clean patched : Tree File Line} {tpl : File → Template Line} (henabled : s.enabled = true)
    (hlist : Listed s (s.patches []) ps) (hall : applyAll ps clean = some patched)
    (hsep : Separate ps clean patched tpl) (calls : List Call) :
    runCalls s calls clean = .ok (expected clean patched calls) := by
  have hpatch : ∀ t, t = clean ∨ t = patched → patchrepo s [] t = .ok patched := by
    rintro t (rfl | rfl)
    · rw [patchrepo, if_pos henabled, applyLoop_of_applyAll hlist hall]
    · rw [patchrepo, if_pos henabled, applyLoop_of_applied hlist hsep.applied]
  have hremove : ∀ t, t = clean ∨ t = patched → removepatch s t = clean := by
    rintro t (rfl | rfl)
    · rw [removepatch, if_pos henabled, reverseLoop_of_unapplied hlist hsep.unapplied]
    · rw [removepatch, if_pos henabled, hsep.patched_eq hall]
      exact hsep.reverseLoop 0 (by simp) (by simp) hlist
  have hrun : ∀ t, t = clean ∨ t = patched → runCalls s calls t = .ok (match calls.getLast? with
      | some .patchrepo => patched
      | some .removepatch => clean
      | none => t) := by
    induction calls with
    | nil => exact fun t _ => rfl
    | cons call calls ih =>
      intro t ht
      rw [List.getLast?_cons]
      cases call with
      | patchrepo =>
        rw [runCalls, hpatch t ht]
        apply (ih patched (.inr rfl)).trans
        rcases calls.getLast? with _ | (_ | _) <;> rfl
      | removepatch =>
        rw [runCalls, hremove t ht, ih clean (.inl rfl)]
        rcases calls.getLast? with _ | (_ | _) <;> rfl
  rw [hrun clean (.inl rfl), expected]

/-- A component `c` with the control file line "c: a b". -/
def componentC (a b : Patch Unit ℕ) : Setup Unit ℕ where
  enabled := true
  basedir := ['c']
  control := [['x', ':', ' ', 'y'], ['c', ':', ' ', 'a', ' ', 'b']]
  patchfile := fun name => if name = ['a'] then some a else if name = ['b'] then some b else none

/-- Two patches of neighbouring lines that share a line of context. -/
def secondLine : Patch Unit ℕ := [((), ⟨[1, 2, 3], [1, 8, 3]⟩)]
def fourthLine : Patch Unit ℕ := [((), ⟨[3, 4, 5], [3, 9, 5]⟩)]

theorem separate_neighbours : Separate [secondLine, fourthLine] (fun _ => [1, 2, 3, 4, 5])
    (fun _ => [1, 8, 3, 9, 5])
    fun _ => [.text [1], .change 0 [2] [8], .text [3], .change 1 [4] [9], .text [5]] where
  clean_eq := rfl
  covers i p hp f := by
    match i, hp with
    | 0, hp =>
      obtain rfl := Option.some.inj hp
      have h : Template.Covers 0 [⟨[1, 2, 3], [1, 8, 3]⟩]
          ([] ++ [.text [1], .change 0 [2] [8], .text [3]] ++ [.change 1 [4] [9], .text [5]]) :=
        .cons (by simp) (by simp [Piece.OnlyBy]) rfl rfl (.nil (by simp [Piece.FreeOf]))
      exact h
    | 1, hp =>
      obtain rfl := Option.some.inj hp
      have h : Template.Covers 1 [⟨[3, 4, 5], [3, 9, 5]⟩] ([.text [1], .change 0 [2] [8]] ++
          [.text [3], .change 1 [4] [9], .text [5]] ++ []) :=
        .cons (by simp [Piece.FreeOf]) (by simp [Piece.OnlyBy]) rfl rfl (.nil (by simp))
      exact h
  applied := by decide
  unapplied := by decide
  removable i p hp := by
    match i, hp with
    | 0, hp => exact Option.some.inj hp ▸ rfl
    | 1, hp => exact Option.some.inj hp ▸ rfl

theorem patches_inverse_neighbours :
    runCalls (componentC secondLine fourthLine) [.patchrepo, .patchrepo, .removepatch]
      (fun _ => [1, 2, 3, 4, 5]) = .ok fun _ => [1, 2, 3, 4, 5] :=
  patches_inverse rfl (.cons (by decide) (.cons (by decide) .nil)) rfl separate_neighbours
    [.patchrepo, .patchrepo, .removepatch]

def oneToTwo : Patch Unit ℕ := [((), ⟨[1], [2]⟩)]
def twoToThree : Patch Unit ℕ := [((), ⟨[2], [3]⟩)]

/-- `removepatch` tries the first patch first, finds it not applied, and takes off only the
second: the tree is left half patched. -/
theorem not_inverse_overlapping : ¬ ∀ (s : Setup Unit ℕ) (ps : List (Patch Unit ℕ))
    (clean patched : Tree Unit ℕ), s.enabled = true → Listed s (s.patches []) ps →
      applyAll ps clean = some patched →
      ∀ calls, runCalls s calls clean = .ok (expected clean patched calls) := by
  intro hall
  have hrun := hall (componentC oneToTwo twoToThree) [oneToTwo, twoToThree] (fun _ => [1])
    (fun _ => [3]) rfl (.cons (by decide) (.cons (by decide) .nil)) rfl [.patchrepo, .removepatch]
  have hleft : runCalls (componentC oneToTwo twoToThree) [.patchrepo, .removepatch]
      (fun _ => [1]) = .ok fun _ => [2] := rfl
  rw [hleft] at hrun
  have := congrFun (Except.ok.inj hrun) ()
  exact absurd this (by decide)

end Aomp.Patches
