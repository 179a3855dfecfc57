import Mathlib.Data.List.Basic
import Mathlib.Data.List.Nodup

/-!
# Linearizable histories

A sequential object answers its operations one after another. A history of overlapping
calls is linearizable when some order of the calls, each one operation of the object,
explains every answer and keeps the order of the calls that do not overlap. Calls that
hand the object several operations in a row are the operations of its `batch`.
-/
namespace Aomp.Foundations

abbrev SequentialObject (σ ι ρ : Type*) := σ → ι → σ × ρ

namespace SequentialObject

variable {σ ι ρ : Type*} (obj : SequentialObject σ ι ρ)

/-- The state after some operations. -/
def after (h : σ) (ops : List ι) : σ := ops.foldl (fun h op => (obj h op).1) h

def answers : σ → List ι → List ρ
  | _, [] => []
  | h, op :: ops => (obj h op).2 :: answers (obj h op).1 ops

def comap {ι' : Type*} (f : ι' → ι) : SequentialObject σ ι' ρ := fun h op => obj h (f op)

def batch : SequentialObject σ (List ι) (List ρ) := fun h ops => (obj.after h ops, obj.answers h ops)

@[simp] theorem after_cons (h : σ) (op : ι) (ops : List ι) :
    obj.after h (op :: ops) = obj.after (obj h op).1 ops := rfl

@[simp] theorem answers_cons (h : σ) (op : ι) (ops : List ι) :
    obj.answers h (op :: ops) = (obj h op).2 :: obj.answers (obj h op).1 ops := rfl

theorem after_append (h : σ) (ops ops' : List ι) :
    obj.after h (ops ++ ops') = obj.after (obj.after h ops) ops' :=
  List.foldl_append

theorem answers_append (h : σ) (ops ops' : List ι) :
    obj.answers h (ops ++ ops') = obj.answers h ops ++ obj.answers (obj.after h ops) ops' := by
  induction ops generalizing h with
  | nil => rfl
  | cons op ops ih => simp [ih]

@[simp] theorem length_answers (h : σ) (ops : List ι) : (obj.answers h ops).length = ops.length := by
  induction ops generalizing h with
  | nil => rfl
  | cons op ops ih => simp [ih]

theorem comap_after {ι' : Type*} (f : ι' → ι) (h : σ) (ops : List ι') :
    (obj.comap f).after h ops = obj.after h (ops.map f) := by
  induction ops generalizing h with
  | nil => rfl
  | cons op ops ih => exact ih _

theorem comap_answers {ι' : Type*} (f : ι' → ι) (h : σ) (ops : List ι') :
    (obj.comap f).answers h ops = obj.answers h (ops.map f) := by
  induction ops generalizing h with
  | nil => rfl
  | cons op ops ih => exact congrArg (_ :: ·) (ih _)

theorem batch_after (h : σ) (batches : List (List ι)) :
    obj.batch.after h batches = obj.after h batches.flatten := by
  induction batches generalizing h with
  | nil => rfl
  | cons ops rest ih =>
    rw [List.flatten_cons, after_append, after_cons, ih]
    rfl

/-- Answers that explain the operations one by one explain them batch by batch. -/
theorem batch_answers_eq {α : Type*} (groups : List α) (ops : α → List ι) (results : α → List ρ)
    (hlength : ∀ g ∈ groups, (ops g).length = (results g).length) {h : σ}
    (hflat : obj.answers h (groups.map ops).flatten = (groups.map results).flatten) :
    obj.batch.answers h (groups.map ops) = groups.map results := by
  induction groups generalizing h with
  | nil => rfl
  | cons g rest ih =>
    simp only [List.map_cons, List.flatten_cons, answers_append] at hflat
    have hsame : (obj.answers h (ops g)).length = (results g).length := by
      rw [length_answers, hlength g List.mem_cons_self]
    obtain ⟨hfirst, hrest⟩ := List.append_inj hflat hsame
    have hih := ih (fun g' hg' => hlength g' (List.mem_cons_of_mem g hg')) hrest
    rw [List.map_cons, List.map_cons, answers_cons]
    exact congrArg₂ _ hfirst hih

end SequentialObject

/-- A call begins with its operation and ends with its answer. -/
inductive Event (κ ι ρ : Type*)
  | invoke (call : κ) (op : ι)
  | respond (call : κ) (answer : ρ)

variable {κ σ ι ρ : Type*}

def EndsBefore (history : List (Event κ ι ρ)) (a b : κ) : Prop :=
  ∃ answer op, [Event.respond a answer, .invoke b op].Sublist history

/-- The calls take effect in `order`, each with its operation and the answer it gets. -/
structure Linearizes (obj : SequentialObject σ ι ρ) (h₀ : σ) (history : List (Event κ ι ρ))
    (order : List (κ × ι × ρ)) : Prop where
  nodup : (order.map (·.1)).Nodup
  legal : obj.answers h₀ (order.map (·.2.1)) = order.map (·.2.2)
  invoked : ∀ e ∈ order, .invoke e.1 e.2.1 ∈ history
  answered : ∀ k r, .respond k r ∈ history → ∃ op, (k, op, r) ∈ order
  realTime : order.Pairwise fun x y => ¬ EndsBefore history y.1 x.1

theorem EndsBefore.append_respond {history : List (Event κ ι ρ)} {a b k : κ} {r : ρ}
    (h : EndsBefore (history ++ [.respond k r]) a b) : EndsBefore history a b := by
  obtain ⟨answer, op, hsub⟩ := h
  refine ⟨answer, op, ?_⟩
  rw [List.sublist_append_iff] at hsub
  obtain ⟨l₁, l₂, heq, h₁, h₂⟩ := hsub
  rcases List.sublist_singleton.mp h₂ with rfl | rfl
  · rw [List.append_nil] at heq
    rwa [heq]
  · have hlast := congrArg List.getLast? heq
    simp at hlast

theorem EndsBefore.append_invoke {history : List (Event κ ι ρ)} {a b k : κ} {op : ι}
    (h : EndsBefore (history ++ [.invoke k op]) a b) : EndsBefore history a b ∨ b = k ∧
      ∃ answer, .respond a answer ∈ history := by
  obtain ⟨answer, op', hsub⟩ := h
  rw [List.sublist_append_iff] at hsub
  obtain ⟨l₁, l₂, heq, h₁, h₂⟩ := hsub
  rcases List.sublist_singleton.mp h₂ with rfl | rfl
  · rw [List.append_nil] at heq
    exact .inl ⟨answer, op', heq ▸ h₁⟩
  · have hsplit : [Event.respond a answer] ++ [.invoke b op'] = l₁ ++ [.invoke k op] := heq
    obtain ⟨rfl, hlast⟩ := List.append_inj' hsplit rfl
    obtain ⟨rfl, -⟩ : b = k ∧ op' = op := by simpa using hlast
    exact .inr ⟨rfl, answer, List.singleton_sublist.mp h₁⟩

section Grouped

variable {α : Type*} {key : α → κ} {groups : List (κ × List α)} {l : List α} {a : α}

/-- The list is made of the groups, one after another: one for each key. -/
structure Grouped (key : α → κ) (groups : List (κ × List α)) (l : List α) : Prop where
  flatten : l = (groups.map (·.2)).flatten
  nodup : (groups.map (·.1)).Nodup
  ne_nil : ∀ g ∈ groups, g.2 ≠ []
  key_eq : ∀ g ∈ groups, ∀ a ∈ g.2, key a = g.1

theorem Grouped.nil : Grouped key [] [] := ⟨rfl, List.nodup_nil, by simp, by simp⟩

theorem Grouped.mem_keys (h : Grouped key groups l) {k : κ} :
    k ∈ groups.map (·.1) ↔ ∃ a ∈ l, key a = k := by
  rw [h.flatten]
  constructor
  · intro hk
    obtain ⟨g, hg, rfl⟩ := List.mem_map.mp hk
    obtain ⟨a, ha⟩ := List.exists_mem_of_ne_nil _ (h.ne_nil g hg)
    exact ⟨a, List.mem_flatten.mpr ⟨g.2, List.mem_map_of_mem hg, ha⟩, h.key_eq g hg a ha⟩
  · rintro ⟨a, ha, rfl⟩
    obtain ⟨as, has, ha⟩ := List.mem_flatten.mp ha
    obtain ⟨g, hg, rfl⟩ := List.mem_map.mp has
    exact h.key_eq g hg a ha ▸ List.mem_map_of_mem hg

/-- An entry of a new key begins a group. -/
theorem Grouped.append_new (h : Grouped key groups l) (hnew : ∀ b ∈ l, key b ≠ key a) :
    Grouped key (groups ++ [(key a, [a])]) (l ++ [a]) where
  flatten := by simp [h.flatten]
  nodup := by
    rw [List.map_append]
    apply List.Nodup.append h.nodup (List.nodup_singleton _)
    rw [List.disjoint_singleton, h.mem_keys]
    rintro ⟨b, hb, he⟩
    exact hnew b hb he
  ne_nil g hg := by
    rcases List.mem_append.mp hg with hg | hg
    · exact h.ne_nil g hg
    · rw [List.mem_singleton.mp hg]
      simp
  key_eq g hg b hb := by
    rcases List.mem_append.mp hg with hg | hg
    · exact h.key_eq g hg b hb
    · obtain rfl := List.mem_singleton.mp hg
      rw [List.mem_singleton.mp hb]

theorem Grouped.append_last {as : List α} (h : Grouped key (groups ++ [(key a, as)]) l) :
    Grouped key (groups ++ [(key a, as ++ [a])]) (l ++ [a]) where
  flatten := by simp [h.flatten]
  nodup := by simpa using h.nodup
  ne_nil g hg := by
    rcases List.mem_append.mp hg with hg | hg
    · exact h.ne_nil g (List.mem_append_left _ hg)
    · rw [List.mem_singleton.mp hg]
      simp
  key_eq g hg b hb := by
    rcases List.mem_append.mp hg with hg | hg
    · exact h.key_eq g (List.mem_append_left _ hg) b hb
    · obtain rfl := List.mem_singleton.mp hg
      rcases List.mem_append.mp hb with hb | hb
      · exact h.key_eq _ (List.mem_append_right _ (List.mem_singleton_self _)) b hb
      · rw [List.mem_singleton.mp hb]

theorem Grouped.last (h : Grouped key groups l) (ha : l.getLast? = some a) :
    ∃ gs as, groups = gs ++ [(key a, as)] := by
  rcases List.eq_nil_or_concat groups with rfl | ⟨gs, g, rfl⟩
  · simp [h.flatten] at ha
  · have hne := h.ne_nil g (by simp)
    have hlast : g.2.getLast? = some a := by
      rw [h.flatten] at ha
      simpa [List.getLast?_append, List.getLast?_eq_some_getLast hne] using ha
    have hkey := h.key_eq g (by simp) a (List.mem_of_getLast? hlast)
    exact ⟨gs, g.2, by simp [hkey]⟩

/-- The group of a key holds all its entries. -/
theorem Grouped.filter_eq [DecidableEq κ] (h : Grouped key groups l) {g : κ × List α}
    (hg : g ∈ groups) : l.filter (key · = g.1) = g.2 := by
  obtain ⟨gs, gs', rfl⟩ := List.append_of_mem hg
  have hother : ∀ g' ∈ gs ++ gs', ∀ a ∈ g'.2, key a ≠ g.1 := by
    intro g' hg' a ha he
    have hmem : g' ∈ gs ++ g :: gs' := by
      rcases List.mem_append.mp hg' with hg' | hg' <;> simp [hg']
    have hnodup := h.nodup
    rw [List.map_append, List.map_cons, List.nodup_middle] at hnodup
    apply (List.nodup_cons.mp hnodup).1
    rw [← List.map_append, ← he, h.key_eq g' hmem a ha]
    exact List.mem_map_of_mem hg'
  have hnil : ∀ gs'' : List (κ × List α), (∀ g' ∈ gs'', g' ∈ gs ++ gs') →
      (gs''.map (·.2)).flatten.filter (key · = g.1) = [] := by
    intro gs'' hsub
    rw [List.filter_eq_nil_iff]
    intro a ha
    obtain ⟨as, has, ha⟩ := List.mem_flatten.mp ha
    obtain ⟨g', hg', rfl⟩ := List.mem_map.mp has
    simpa using hother g' (hsub g' hg') a ha
  have hself : g.2.filter (key · = g.1) = g.2 :=
    List.filter_eq_self.mpr fun a ha => by simpa using h.key_eq g hg a ha
  rw [h.flatten, List.map_append, List.map_cons, List.flatten_append, List.flatten_cons,
    List.filter_append, List.filter_append, hself, hnil gs fun g' hg' => List.mem_append_left _ hg',
    hnil gs' fun g' hg' => List.mem_append_right _ hg', List.nil_append, List.append_nil]

/-- The groups stand in the order of their entries. -/
theorem Grouped.pairwise (h : Grouped key groups l) :
    groups.Pairwise fun x y => ∃ a b, [a, b].Sublist l ∧ key a = x.1 ∧ key b = y.1 := by
  obtain ⟨hflat, hnodup, hne, hkey⟩ := h
  rw [hflat]
  clear hflat hnodup
  induction groups with
  | nil => exact .nil
  | cons x rest ih =>
    obtain ⟨a, ha⟩ := List.exists_mem_of_ne_nil _ (hne x List.mem_cons_self)
    refine List.pairwise_cons.mpr ⟨fun y hy => ?_, ?_⟩
    · obtain ⟨b, hb⟩ := List.exists_mem_of_ne_nil _ (hne y (List.mem_cons_of_mem x hy))
      refine ⟨a, b, ?_, hkey x List.mem_cons_self a ha, hkey y (List.mem_cons_of_mem x hy) b hb⟩
      rw [List.map_cons, List.flatten_cons]
      have hmem : b ∈ (rest.map (·.2)).flatten :=
        List.mem_flatten.mpr ⟨y.2, List.mem_map_of_mem hy, hb⟩
      exact (List.singleton_sublist.mpr ha).append (List.singleton_sublist.mpr hmem)
    · refine (ih (fun g hg => hne g (List.mem_cons_of_mem x hg))
        fun g hg => hkey g (List.mem_cons_of_mem x hg)).imp ?_
      rintro y z ⟨b, c, hsub, hb, hc⟩
      exact ⟨b, c, hsub.trans (by simp), hb, hc⟩

end Grouped

end Aomp.Foundations
