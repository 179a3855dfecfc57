import Mathlib.Data.Nat.Notation
import Mathlib.Tactic.Common

/-!
# The lifetime of an object behind a pointer

Operations on the object are safe when each finds it live. Then it is freed at most once for
each time it was allocated.
-/
namespace Aomp.Foundations

inductive Lifetime
  | null
  | live
  | freed
  deriving DecidableEq

/-- An operation allocates the object, uses it or frees it. -/
inductive Access
  | new
  | use
  | delete
  deriving DecidableEq

namespace Lifetime

/-- What the pointer is afterwards, whether or not the object was live. -/
def after : Lifetime → Access → Lifetime
  | _, .new => .live
  | t, .use => t
  | _, .delete => .freed

def afterAll (t : Lifetime) (ops : List Access) : Lifetime := ops.foldl after t

/-- The operation finds the object live, unless it makes a new one. -/
def Allows (t : Lifetime) : Access → Prop
  | .new => True
  | .use | .delete => t = .live

instance (t : Lifetime) (op : Access) : Decidable (t.Allows op) := by
  cases op <;> unfold Allows <;> infer_instance

def Safe (t : Lifetime) (ops : List Access) : Prop :=
  ∀ pre op post, ops = pre ++ op :: post → (t.afterAll pre).Allows op

variable {t : Lifetime} {op : Access} {ops ops' : List Access}

@[simp] theorem afterAll_nil : t.afterAll [] = t := rfl

@[simp] theorem afterAll_cons : t.afterAll (op :: ops) = (t.after op).afterAll ops := rfl

theorem afterAll_append : t.afterAll (ops ++ ops') = (t.afterAll ops).afterAll ops' :=
  List.foldl_append

@[simp] theorem safe_nil : t.Safe [] := by
  intro pre op post h
  simp at h

theorem safe_cons : t.Safe (op :: ops) ↔ t.Allows op ∧ (t.after op).Safe ops := by
  constructor
  · intro h
    exact ⟨h [] op ops rfl, fun pre op' post hops => h (op :: pre) op' post (by rw [hops]; rfl)⟩
  · rintro ⟨hop, hrest⟩ pre op' post h
    cases pre with
    | nil =>
      obtain ⟨rfl, -⟩ := List.cons.inj h
      exact hop
    | cons p pre =>
      obtain ⟨rfl, hops⟩ := List.cons.inj h
      exact hrest pre op' post hops

theorem safe_append : t.Safe (ops ++ ops') ↔ t.Safe ops ∧ (t.afterAll ops).Safe ops' := by
  induction ops generalizing t with
  | nil => simp
  | cons op ops ih => rw [List.cons_append, safe_cons, safe_cons, ih, afterAll_cons, and_assoc]

instance decidableSafe : (t : Lifetime) → (ops : List Access) → Decidable (t.Safe ops)
  | _, [] => isTrue safe_nil
  | t, op :: ops =>
    have := decidableSafe (t.after op) ops
    decidable_of_iff _ safe_cons.symm

def alive : Lifetime → ℕ
  | live => 1
  | null | freed => 0

theorem Safe.count (h : t.Safe ops) :
    ops.count .delete + (t.afterAll ops).alive ≤ ops.count .new + t.alive := by
  induction ops generalizing t with
  | nil => simp
  | cons op ops ih =>
    rw [safe_cons] at h
    have hrest := ih h.2
    have hop := h.1
    rw [afterAll_cons]
    cases op with
    | new =>
      have hlive : (after t .new).alive = 1 := rfl
      simp
      omega
    | use => simpa [after] using hrest
    | delete =>
      obtain rfl : t = .live := hop
      have hlive : live.alive = 1 := rfl
      have hfreed : (after live .delete).alive = 0 := rfl
      simp
      omega

/-- The object is freed at most once for each time it was allocated. -/
theorem Safe.delete_le_new (h : null.Safe ops) {pre : List Access} (hpre : pre <+: ops) :
    pre.count .delete ≤ pre.count .new := by
  obtain ⟨post, rfl⟩ := hpre
  have hcount := (safe_append.mp h).1.count
  have hnull : null.alive = 0 := rfl
  omega

end Lifetime

end Aomp.Foundations
