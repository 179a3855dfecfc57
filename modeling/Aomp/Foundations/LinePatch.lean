import Mathlib

/-!
# Line patches

A hunk replaces lines by others; it is located by its content alone, so it applies only
where its old lines occur at exactly one place. Patches that touch separate places of a
file can be put in and taken out in any order: `Template` is a file with the alternatives
of each place, and `Covers` says that the hunks of one patch lie inside its own places
and the text around them.
-/
namespace Aomp.Foundations

variable {α : Type*}

/-- The lines a hunk takes away, with their context, and the lines it puts there. -/
structure Hunk (α : Type*) where
  old : List α
  new : List α
  deriving DecidableEq

def Hunk.reverse (h : Hunk α) : Hunk α := ⟨h.new, h.old⟩

@[simp] theorem Hunk.reverse_old (h : Hunk α) : h.reverse.old = h.new := rfl
@[simp] theorem Hunk.reverse_new (h : Hunk α) : h.reverse.new = h.old := rfl

section

variable [DecidableEq α]

/-- What stands before and after each occurrence of `pat`. -/
def places (pat : List α) : List α → List (List α × List α)
  | [] => if pat = [] then [([], [])] else []
  | x :: xs =>
    let later := (places pat xs).map fun p => (x :: p.1, p.2)
    if pat <+: x :: xs then ([], (x :: xs).drop pat.length) :: later else later

theorem mem_places {pat xs pre post : List α} :
    (pre, post) ∈ places pat xs ↔ xs = pre ++ pat ++ post := by
  induction xs generalizing pre with
  | nil =>
    unfold places
    split_ifs with hpat
    · simp [hpat, and_comm, eq_comm]
    · simp [hpat]
  | cons x xs ih =>
    have hlater : (pre, post) ∈ (places pat xs).map (fun p => (x :: p.1, p.2)) ↔
        ∃ pre', pre = x :: pre' ∧ xs = pre' ++ pat ++ post := by
      simp only [List.mem_map, Prod.exists, Prod.mk.injEq]
      constructor
      · rintro ⟨pre', post', hmem, rfl, rfl⟩
        exact ⟨pre', rfl, ih.mp hmem⟩
      · rintro ⟨pre', rfl, hxs⟩
        exact ⟨pre', post, ih.mpr hxs, rfl, rfl⟩
    have hfirst : (pre = [] ∧ post = (x :: xs).drop pat.length ∧ pat <+: x :: xs) ↔
        pre = [] ∧ x :: xs = pat ++ post := by
      constructor
      · rintro ⟨rfl, rfl, t, ht⟩
        exact ⟨rfl, by rw [← ht, List.drop_left]⟩
      · rintro ⟨rfl, hxs⟩
        exact ⟨rfl, by rw [hxs, List.drop_left], post, hxs.symm⟩
    have hsplit : x :: xs = pre ++ pat ++ post ↔
        (pre = [] ∧ x :: xs = pat ++ post) ∨ ∃ pre', pre = x :: pre' ∧ xs = pre' ++ pat ++ post := by
      cases pre with
      | nil => simp
      | cons y pre =>
        simp only [List.cons_append, List.cons.injEq, reduceCtorEq, false_and, false_or]
        constructor
        · rintro ⟨rfl, hxs⟩
          exact ⟨pre, ⟨rfl, rfl⟩, hxs⟩
        · rintro ⟨_, ⟨rfl, rfl⟩, hxs⟩
          exact ⟨rfl, hxs⟩
    rw [hsplit, ← hlater, ← hfirst, places]
    by_cases hpat : pat <+: x :: xs
    · simp [hpat]
    · simp [hpat]

end

/-- `pat` occurs at most once in `xs`. -/
def AtMostOnce (pat xs : List α) : Prop :=
  ∀ pre post pre' post', xs = pre ++ pat ++ post → xs = pre' ++ pat ++ post' →
    pre = pre' ∧ post = post'

theorem AtMostOnce.of_append {pat xs ys : List α} (h : AtMostOnce pat (xs ++ ys)) :
    AtMostOnce pat ys := by
  rintro pre post pre' post' rfl hys
  obtain ⟨hpre, hpost⟩ := h (xs ++ pre) post (xs ++ pre') post' (by simp) (by rw [hys]; simp)
  exact ⟨List.append_cancel_left hpre, hpost⟩

theorem atMostOnce_of_places [DecidableEq α] {pat xs : List α} (h : (places pat xs).length = 1) :
    AtMostOnce pat xs := by
  obtain ⟨p, hp⟩ := List.length_eq_one_iff.mp h
  intro pre post pre' post' hxs hxs'
  have hmem := mem_places.mpr hxs
  have hmem' := mem_places.mpr hxs'
  rw [hp, List.mem_singleton] at hmem hmem'
  exact Prod.mk.inj (hmem.trans hmem'.symm)

section

variable [DecidableEq α]

def replaceHunks : List (Hunk α) → List α → Option (List α)
  | [], xs => some xs
  | h :: hs, xs =>
    match places h.old xs with
    | [] => none
    | (pre, post) :: _ => (replaceHunks hs post).map fun rest => pre ++ h.new ++ rest

def applyHunks (hs : List (Hunk α)) (xs : List α) : Option (List α) :=
  if ∀ h ∈ hs, (places h.old xs).length = 1 then replaceHunks hs xs else none

theorem places_eq_of_atMostOnce {pat xs pre post : List α} (h : AtMostOnce pat xs)
    (hxs : xs = pre ++ pat ++ post) : ∃ ps, places pat xs = (pre, post) :: ps := by
  have hmem := mem_places.mpr hxs
  obtain ⟨⟨pre', post'⟩, ps, hps⟩ := List.exists_cons_of_ne_nil (List.ne_nil_of_mem hmem)
  have hxs' := mem_places.mp (hps ▸ List.mem_cons_self : (pre', post') ∈ places pat xs)
  obtain ⟨rfl, rfl⟩ := h pre post pre' post' hxs hxs'
  exact ⟨ps, hps⟩

theorem atMostOnce_of_applyHunks {hs : List (Hunk α)} {xs : List α}
    (h : (applyHunks hs xs).isSome) : ∀ k ∈ hs, AtMostOnce k.old xs := by
  unfold applyHunks at h
  split_ifs at h with hall
  · exact fun k hk => atMostOnce_of_places (hall k hk)
  · cases h

theorem applyHunks_eq (hs : List (Hunk α)) (xs : List α) (h : (applyHunks hs xs).isSome) :
    applyHunks hs xs = replaceHunks hs xs := by
  unfold applyHunks at h ⊢
  split_ifs at h ⊢
  · rfl
  · cases h

end

/-- A part of a file: fixed text, or a place where the patch `owner` replaces `old` by `new`. -/
inductive Piece (α : Type*)
  | text (lines : List α)
  | change (owner : ℕ) (old new : List α)

namespace Piece

/-- The lines of a part when exactly the patches in `applied` are in the file. -/
def render (applied : ℕ → Bool) : Piece α → List α
  | text lines => lines
  | change owner old new => if applied owner then new else old

/-- The patch `i` does not change this part. -/
def FreeOf (i : ℕ) : Piece α → Prop
  | text _ => True
  | change owner _ _ => owner ≠ i

/-- No patch but `i` changes this part. -/
def OnlyBy (i : ℕ) : Piece α → Prop
  | text _ => True
  | change owner _ _ => owner = i

/-- The part as patch `i`, reversed, sees it. -/
def flip (i : ℕ) : Piece α → Piece α
  | text lines => text lines
  | change owner old new => if owner = i then change owner new old else change owner old new

end Piece

abbrev Template (α : Type*) := List (Piece α)

namespace Template

def render (applied : ℕ → Bool) (t : Template α) : List α := t.flatMap (Piece.render applied)

/-- The hunks `hs` of patch `i` lie in order in the template, each around places of its own. -/
inductive Covers (i : ℕ) : List (Hunk α) → Template α → Prop
  | nil {t : Template α} (hfree : ∀ c ∈ t, c.FreeOf i) : Covers i [] t
  | cons {pre region post : Template α} {h : Hunk α} {hs : List (Hunk α)}
      (hpre : ∀ c ∈ pre, c.FreeOf i) (hregion : ∀ c ∈ region, c.OnlyBy i)
      (hold : h.old = render (fun _ => false) region)
      (hnew : h.new = render (fun _ => true) region) (hpost : Covers i hs post) :
      Covers i (h :: hs) (pre ++ region ++ post)

variable {i : ℕ} {applied applied' : ℕ → Bool} {t u : Template α}

@[simp] theorem render_append : render applied (t ++ u) = render applied t ++ render applied u :=
  List.flatMap_append

theorem render_congr (h : ∀ c ∈ t, c.render applied = c.render applied') :
    render applied t = render applied' t :=
  List.flatMap_congr h

theorem render_freeOf (h : ∀ c ∈ t, c.FreeOf i) (b : Bool) :
    render (Function.update applied i b) t = render applied t := by
  apply render_congr
  intro c hc
  have hfree := h c hc
  cases c with
  | text lines => rfl
  | change owner old new =>
    have hne : owner ≠ i := hfree
    simp only [Piece.render, Function.update_of_ne hne]

theorem render_onlyBy (h : ∀ c ∈ t, c.OnlyBy i) (applied : ℕ → Bool) :
    render applied t = render (fun _ => applied i) t := by
  apply render_congr
  intro c hc
  have honly := h c hc
  cases c with
  | text lines => rfl
  | change owner old new =>
    obtain rfl : owner = i := honly
    rfl

/-- A patch that is not in the file goes to its own places. -/
theorem Covers.replaceHunks [DecidableEq α] {hs : List (Hunk α)} (h : Covers i hs t)
    (applied : ℕ → Bool) (hi : applied i = false)
    (honce : ∀ k ∈ hs, AtMostOnce k.old (render applied t)) :
    replaceHunks hs (render applied t) = some (render (Function.update applied i true) t) := by
  induction h with
  | nil hfree => rw [render_freeOf hfree]; rfl
  | @cons pre region post k hs hpre hregion hold hnew hpost ih =>
    have hsplit : render applied (pre ++ region ++ post) =
        render applied pre ++ k.old ++ render applied post := by
      rw [render_append, render_append, render_onlyBy hregion, hi, ← hold]
    have hrest := ih fun j hj => by
      have hj := honce j (List.mem_cons_of_mem _ hj)
      rw [hsplit] at hj
      exact hj.of_append
    obtain ⟨ps, hps⟩ := places_eq_of_atMostOnce (honce k List.mem_cons_self) hsplit
    rw [Foundations.replaceHunks, hps]
    simp only [hrest, Option.map_some, render_append]
    rw [render_freeOf hpre, render_onlyBy hregion, Function.update_self, ← hnew]

theorem render_flip :
    render applied (t.map (Piece.flip i)) = render (Function.update applied i (!applied i)) t := by
  rw [render, List.flatMap_map]
  apply List.flatMap_congr
  intro c _
  cases c with
  | text lines => rfl
  | change owner old new =>
    by_cases ho : owner = i
    · subst ho
      cases hi : applied owner <;> simp [Piece.flip, Piece.render, hi]
    · simp [Piece.flip, Piece.render, ho]

theorem flip_freeOf (h : ∀ c ∈ t, c.FreeOf i) : ∀ c ∈ t.map (Piece.flip i), c.FreeOf i := by
  intro c hc
  obtain ⟨d, hd, rfl⟩ := List.mem_map.mp hc
  have hfree := h d hd
  cases d with
  | text lines => trivial
  | change owner old new =>
    have hne : owner ≠ i := hfree
    simpa [Piece.flip, hne] using hfree

theorem flip_onlyBy (h : ∀ c ∈ t, c.OnlyBy i) : ∀ c ∈ t.map (Piece.flip i), c.OnlyBy i := by
  intro c hc
  obtain ⟨d, hd, rfl⟩ := List.mem_map.mp hc
  have honly := h d hd
  cases d with
  | text lines => trivial
  | change owner old new =>
    obtain rfl : owner = i := honly
    simp [Piece.flip, Piece.OnlyBy]

/-- The reversed patch covers the template with its places turned round. -/
theorem Covers.reverse {hs : List (Hunk α)} (h : Covers i hs t) :
    Covers i (hs.map Hunk.reverse) (t.map (Piece.flip i)) := by
  induction h with
  | nil hfree => exact .nil (flip_freeOf hfree)
  | @cons pre region post k hs hpre hregion hold hnew hpost ih =>
    rw [List.map_cons, List.map_append, List.map_append]
    refine .cons (flip_freeOf hpre) (flip_onlyBy hregion) ?_ ?_ ih
    · rw [render_flip, render_onlyBy hregion, Function.update_self, Hunk.reverse_old, hnew]
      rfl
    · rw [render_flip, render_onlyBy hregion, Function.update_self, Hunk.reverse_new, hold]
      rfl

/-- A patch that is in the file comes out of its own places. -/
theorem Covers.replaceHunks_reverse [DecidableEq α] {hs : List (Hunk α)} (h : Covers i hs t)
    (hi : applied i = true) (honce : ∀ k ∈ hs, AtMostOnce k.new (render applied t)) :
    Foundations.replaceHunks (hs.map Hunk.reverse) (render applied t) =
      some (render (Function.update applied i false) t) := by
  have hflip : render applied t =
      render (Function.update applied i false) (t.map (Piece.flip i)) := by
    rw [render_flip, Function.update_self, Function.update_idem, Bool.not_false, ← hi,
      Function.update_eq_self]
  have hout := h.reverse.replaceHunks (Function.update applied i false)
    (Function.update_self i false applied) fun k hk => by
      obtain ⟨j, hj, rfl⟩ := List.mem_map.mp hk
      rw [← hflip]
      exact honce j hj
  rw [hflip, hout, render_flip, Function.update_self, Function.update_idem, Function.update_idem]
  rfl

end Template

end Aomp.Foundations
