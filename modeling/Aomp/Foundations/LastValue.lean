import Mathlib.Data.List.Induction

/-!
# The last value given

A variable that is assigned while a list is read holds the value of the last assignment, or what it
held before.
-/

namespace Aomp.Foundations

variable {α β σ : Type*} {f : α → Option β}

def lastValue (f : α → Option β) (l : List α) : Option β := l.foldl (fun v a => (f a).or v) none

@[simp] theorem lastValue_nil : lastValue f [] = none := rfl

@[simp] theorem lastValue_concat (l : List α) (a : α) :
    lastValue f (l ++ [a]) = (f a).or (lastValue f l) := by
  rw [lastValue, List.foldl_append]
  rfl

theorem lastValue_append (l later : List α) :
    lastValue f (l ++ later) = (lastValue f later).or (lastValue f l) := by
  induction later using List.reverseRecOn with
  | nil => simp
  | append_singleton later a ih =>
    rw [← List.append_assoc, lastValue_concat, lastValue_concat, ih, Option.or_assoc]

theorem lastValue_cons (a : α) (l : List α) :
    lastValue f (a :: l) = (lastValue f l).or (f a) := by
  rw [← List.singleton_append, lastValue_append]
  exact congrArg _ Option.or_none

theorem lastValue_eq_none {l : List α} : lastValue f l = none ↔ ∀ a ∈ l, f a = none := by
  induction l using List.reverseRecOn with
  | nil => simp
  | append_singleton l a ih =>
    rw [lastValue_concat, Option.or_eq_none_iff, ih, List.forall_mem_append, List.forall_mem_singleton,
      and_comm]

theorem lastValue_eq_some {l : List α} {v : β} (h : lastValue f l = some v) : ∃ a ∈ l, f a = some v := by
  induction l using List.reverseRecOn with
  | nil => simp at h
  | append_singleton l a ih =>
    rw [lastValue_concat, Option.or_eq_some_iff] at h
    obtain ha | ⟨-, hl⟩ := h
    · exact ⟨a, by simp, ha⟩
    · obtain ⟨b, hb, hv⟩ := ih hl
      exact ⟨b, List.mem_append_left _ hb, hv⟩

theorem lastValue_map {γ : Type*} (g : γ → α) (l : List γ) :
    lastValue f (l.map g) = lastValue (f ∘ g) l := by
  rw [lastValue, lastValue, List.foldl_map]
  rfl

theorem lastValue_mapValue {γ : Type*} (g : β → γ) (l : List α) :
    lastValue (fun a => (f a).map g) l = (lastValue f l).map g := by
  induction l using List.reverseRecOn with
  | nil => rfl
  | append_singleton l a ih =>
    rw [lastValue_concat, lastValue_concat, ih]
    cases f a <;> rfl

section Loop

variable {get : σ → β} {step : σ → α → σ}

theorem foldl_inv (inv : σ → Prop) (s : σ) (l : List α) (hs : inv s)
    (hinv : ∀ s, ∀ a ∈ l, inv s → inv (step s a)) : inv (l.foldl step s) := by
  induction l generalizing s with
  | nil => exact hs
  | cons a l ih =>
    apply ih
    · exact hinv s a (by simp) hs
    · intro s b hb
      exact hinv s b (List.mem_cons_of_mem _ hb)

/-- A loop assigns a variable, under an invariant of the other variables. -/
theorem lastValue_foldl_of_inv (inv : σ → Prop) (s : σ) (l : List α) (hs : inv s)
    (hinv : ∀ s, ∀ a ∈ l, inv s → inv (step s a))
    (hstep : ∀ s, ∀ a ∈ l, inv s → get (step s a) = (f a).getD (get s)) :
    get (l.foldl step s) = (lastValue f l).getD (get s) := by
  induction l using List.reverseRecOn with
  | nil => rfl
  | append_singleton l a ih =>
    have hearlier : ∀ s, ∀ b ∈ l, inv s → inv (step s b) := by
      intro s b hb
      exact hinv s b (List.mem_append_left _ hb)
    have hbefore := ih hearlier fun s b hb => hstep s b (List.mem_append_left _ hb)
    rw [List.foldl_append, List.foldl_cons, List.foldl_nil,
      hstep _ a (by simp) (foldl_inv inv s l hs hearlier), hbefore, lastValue_concat]
    cases f a <;> rfl

theorem lastValue_foldl (s : σ) (l : List α) (hstep : ∀ s a, get (step s a) = (f a).getD (get s)) :
    get (l.foldl step s) = (lastValue f l).getD (get s) :=
  lastValue_foldl_of_inv (fun _ => True) s l trivial (fun _ _ _ _ => trivial)
    fun s a _ _ => hstep s a

end Loop

section Assign

variable {κ : Type*} [DecidableEq κ]

def assign (entries : List (κ × β)) (key : κ) (value : β) : List (κ × β) :=
  entries.filter (·.1 ≠ key) ++ [(key, value)]

def assignAll (entries : List (κ × β)) : List (κ × β) :=
  entries.foldl (fun array e => assign array e.1 e.2) []

theorem mem_assign {entries : List (κ × β)} {key k : κ} {value v : β} :
    (k, v) ∈ assign entries key value ↔ if k = key then v = value else (k, v) ∈ entries := by
  rw [assign]
  split <;> simp_all

theorem nodup_assign {entries : List (κ × β)} (h : (entries.map Prod.fst).Nodup) (key : κ) (value : β) :
    ((assign entries key value).map Prod.fst).Nodup := by
  rw [assign, List.map_append, List.nodup_append]
  refine ⟨h.sublist (List.filter_sublist.map _), by simp, ?_⟩
  intro k hk k' hk'
  simp only [List.mem_map, List.mem_filter] at hk
  obtain ⟨e, ⟨-, hother⟩, rfl⟩ := hk
  rw [List.map_singleton, List.mem_singleton] at hk'
  rw [hk']
  simpa using hother

theorem assignAll_concat (entries : List (κ × β)) (e : κ × β) :
    assignAll (entries ++ [e]) = assign (assignAll entries) e.1 e.2 :=
  List.foldl_append

theorem nodup_assignAll (entries : List (κ × β)) : ((assignAll entries).map Prod.fst).Nodup := by
  induction entries using List.reverseRecOn with
  | nil => simp [assignAll]
  | append_singleton entries e ih =>
    rw [assignAll_concat]
    exact nodup_assign ih _ _

/-- An array holds for each key the last value assigned to it. -/
theorem mem_assignAll {entries : List (κ × β)} {k : κ} {v : β} : (k, v) ∈ assignAll entries
    ↔ lastValue (fun e => if e.1 = k then some e.2 else none) entries = some v := by
  induction entries using List.reverseRecOn with
  | nil => simp [assignAll]
  | append_singleton entries e ih =>
    rw [assignAll_concat, mem_assign, lastValue_concat, ih]
    by_cases hk : k = e.1
    · simp [hk, eq_comm]
    · simp [hk, Ne.symm hk]

end Assign

end Aomp.Foundations
