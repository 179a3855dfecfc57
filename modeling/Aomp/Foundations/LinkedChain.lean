import Mathlib.Data.List.Basic
import Mathlib.Logic.Function.Basic

/-!
# Intrusive singly linked lists

Nodes are linked by a `next` field that holds pointers. A pointer is a name of a
node, and a node may change its name over time (a tagged pointer), so the naming is
a parameter of its own. `Linked p xs` says that following `next` from `p` visits
exactly `xs` in order and then meets the null pointer.
-/
namespace Aomp.Foundations

variable {P ι : Type*} {null : P} {name name' next next' : ι → P} {p : P} {i : ι} {xs : List ι}

def Linked (null : P) (name next : ι → P) : P → List ι → Prop
  | p, [] => p = null
  | p, i :: xs => p = name i ∧ Linked null name next (next i) xs

@[simp] theorem linked_nil : Linked null name next p [] ↔ p = null := Iff.rfl

@[simp] theorem linked_cons :
    Linked null name next p (i :: xs) ↔ p = name i ∧ Linked null name next (next i) xs := Iff.rfl

/-- A chain reads only the names and the links of its own nodes. -/
theorem Linked.congr (h : Linked null name next p xs)
    (hname : ∀ i ∈ xs, name' i = name i) (hnext : ∀ i ∈ xs, next' i = next i) :
    Linked null name' next' p xs := by
  induction xs generalizing p with
  | nil => exact h
  | cons j xs ih =>
    obtain ⟨rfl, hrest⟩ := h
    refine ⟨(hname j (by simp)).symm, ?_⟩
    rw [hnext j (by simp)]
    exact ih hrest (fun i hi => hname i (by simp [hi])) (fun i hi => hnext i (by simp [hi]))

theorem Linked.write_next [DecidableEq ι] (h : Linked null name next p xs) (hi : i ∉ xs) (q : P) :
    Linked null name (Function.update next i q) p xs :=
  h.congr (fun _ _ => rfl) fun j hj => Function.update_of_ne (fun e => hi (by rwa [← e])) _ _

theorem Linked.push (h : Linked null name next p xs) (hlink : next i = p) :
    Linked null name next (name i) (i :: xs) :=
  ⟨rfl, by rwa [hlink]⟩

theorem Linked.eq_nil_iff (h : Linked null name next p xs) (hnull : ∀ i ∈ xs, name i ≠ null) :
    xs = [] ↔ p = null := by
  cases xs with
  | nil => simpa using h
  | cons i xs =>
    obtain ⟨rfl, -⟩ := h
    simp [hnull i (by simp)]

/-- Following `next` from `p` meets the nodes `xs` in order and then the null pointer.
Pointers are only read through `node`, so this speaks about the memory alone. -/
def Visits (null : P) (node : P → ι) (next : ι → P) : P → List ι → Prop
  | p, [] => p = null
  | p, i :: xs => p ≠ null ∧ node p = i ∧ Visits null node next (next i) xs

variable {node : P → ι}

theorem Linked.visits (h : Linked null name next p xs) (hnull : ∀ i ∈ xs, name i ≠ null)
    (hnode : ∀ i ∈ xs, node (name i) = i) : Visits null node next p xs := by
  induction xs generalizing p with
  | nil => exact h
  | cons i xs ih =>
    obtain ⟨rfl, hrest⟩ := h
    exact ⟨hnull i (by simp), hnode i (by simp),
      ih hrest (fun j hj => hnull j (by simp [hj])) fun j hj => hnode j (by simp [hj])⟩

/-- The memory determines what a walk visits. -/
theorem Visits.unique {ys : List ι} (hx : Visits null node next p xs)
    (hy : Visits null node next p ys) : xs = ys := by
  induction xs generalizing p ys with
  | nil =>
    cases ys with
    | nil => rfl
    | cons j ys => exact absurd hx hy.1
  | cons i xs ih =>
    cases ys with
    | nil => exact absurd hy hx.1
    | cons j ys =>
      obtain rfl : i = j := hx.2.1.symm.trans hy.2.1
      rw [ih hx.2.2 hy.2.2]

end Aomp.Foundations
