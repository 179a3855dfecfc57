import Mathlib.Data.Nat.Notation
import Mathlib.Tactic.Common

/-!
# Blocks of a heap

Computations that allocate blocks, store into them and free them. They leave the trace of these
operations, and running the trace faults where a store leaves its block or a block is freed that
is not live.
-/
namespace Aomp.Foundations

/-- An operation on a block. -/
inductive HeapOp (β : Type*)
  | malloc (b : β) (size : ℕ)
  | store (b : β) (off len : ℕ)
  | free (b : β)
  deriving DecidableEq

abbrev BlockHeap (β : Type*) := β → Option ℕ

variable {β ε α γ : Type*}

namespace BlockHeap

def empty : BlockHeap β := fun _ => none

variable [DecidableEq β]

/-- `none` is a fault. -/
def step (h : BlockHeap β) : HeapOp β → Option (BlockHeap β)
  | .malloc b size => if h b = none then some (Function.update h b (some size)) else none
  | .store b off len => if ∃ size ∈ h b, off + len ≤ size then some h else none
  | .free b => if h b = none then none else some (Function.update h b none)

def run (h : BlockHeap β) (ops : List (HeapOp β)) : Option (BlockHeap β) := ops.foldlM step h

variable {h h' : BlockHeap β} {ops ops' : List (HeapOp β)} {op : HeapOp β} {b : β}

@[simp] theorem run_cons : run h (op :: ops) = (step h op).bind fun h => run h ops := rfl

theorem run_append : run h (ops ++ ops') = (run h ops).bind fun h => run h ops' := by
  induction ops generalizing h with
  | nil => rfl
  | cons op ops ih =>
    rw [List.cons_append, run_cons, run_cons, Option.bind_assoc]
    exact Option.bind_congr fun h _ => ih

end BlockHeap

/-- The result of a computation and the trace that it leaves. -/
structure Traced (β ε α : Type*) where
  result : Except ε α
  ops : List (HeapOp β)

namespace Traced

def ok (a : α) : Traced β ε α := ⟨.ok a, []⟩

def fail (e : ε) : Traced β ε α := ⟨.error e, []⟩

def perform (op : HeapOp β) : Traced β ε Unit := ⟨.ok (), [op]⟩

def bind (x : Traced β ε α) (f : α → Traced β ε γ) : Traced β ε γ :=
  match x.result with
  | .ok a => ⟨(f a).result, x.ops ++ (f a).ops⟩
  | .error e => ⟨.error e, x.ops⟩

def mapError {ε' : Type*} (f : ε → ε') (x : Traced β ε α) : Traced β ε' α :=
  ⟨x.result.mapError f, x.ops⟩

@[simp] theorem result_bind (x : Traced β ε α) (f : α → Traced β ε γ) :
    (x.bind f).result = x.result.bind fun a => (f a).result := by
  unfold bind
  cases x.result <;> rfl

@[simp] theorem result_mapError {ε' : Type*} (f : ε → ε') (x : Traced β ε α) :
    (x.mapError f).result = x.result.mapError f := rfl

theorem bind_assoc {δ : Type*} (x : Traced β ε α) (f : α → Traced β ε γ) (g : γ → Traced β ε δ) :
    (x.bind f).bind g = x.bind fun a => (f a).bind g := by
  unfold bind
  cases x.result with
  | error e => rfl
  | ok a => cases hresult : (f a).result <;> simp [hresult]

variable [DecidableEq β] {h : BlockHeap β} {x : Traced β ε α} {f : α → Traced β ε γ}

/-- From the heap `h` the computation does not fault, and its result and the heap after it are
as they should be. -/
def Meets (h : BlockHeap β) (x : Traced β ε α) (Q : Except ε α → BlockHeap β → Prop) : Prop :=
  ∃ h', h.run x.ops = some h' ∧ Q x.result h'

variable {Q : Except ε γ → BlockHeap β → Prop} {R R' : Except ε α → BlockHeap β → Prop}

theorem meets_ok {a : α} (hpost : R (.ok a) h) : Meets h (ok a) R := ⟨h, rfl, hpost⟩

theorem meets_fail {e : ε} (hpost : R (.error e) h) : Meets h (fail e) R := ⟨h, rfl, hpost⟩

theorem Meets.imp (hx : Meets h x R) (himp : ∀ r h', R r h' → R' r h') : Meets h x R' := by
  obtain ⟨h', hrun, hpost⟩ := hx
  exact ⟨h', hrun, himp _ _ hpost⟩

/-- The result is the one of the computation. -/
theorem Meets.with_result (hx : Meets h x R) : Meets h x fun r h' => r = x.result ∧ R r h' := by
  obtain ⟨h', hrun, hpost⟩ := hx
  exact ⟨h', hrun, rfl, hpost⟩

/-- The second computation starts from the heap that the first one leaves. -/
theorem Meets.bind (hx : Meets h x R) (hok : ∀ a h', R (.ok a) h' → Meets h' (f a) Q)
    (herror : ∀ e h', R (.error e) h' → Q (.error e) h') : Meets h (x.bind f) Q := by
  obtain ⟨h', hrun, hpost⟩ := hx
  unfold Traced.bind
  cases hresult : x.result with
  | ok a =>
    rw [hresult] at hpost
    obtain ⟨h'', hrun', hpost'⟩ := hok a h' hpost
    exact ⟨h'', by rw [BlockHeap.run_append, hrun]; exact hrun', hpost'⟩
  | error e =>
    rw [hresult] at hpost
    exact ⟨h', hrun, herror e h' hpost⟩

/-- An operation that does not fault, and what comes behind it. -/
theorem meets_step {op : HeapOp β} {h' : BlockHeap β} {g : Unit → Traced β ε γ}
    (hstep : h.step op = some h') (hrest : Meets h' (g ()) Q) : Meets h ((perform op).bind g) Q := by
  obtain ⟨h'', hrun, hpost⟩ := hrest
  refine ⟨h'', ?_, hpost⟩
  show h.run (op :: (g ()).ops) = some h''
  rw [BlockHeap.run_cons, hstep]
  exact hrun

theorem Meets.mapError {ε' : Type*} {g : ε → ε'} {R' : Except ε' α → BlockHeap β → Prop}
    (hx : Meets h x R) (himp : ∀ r h', R r h' → R' (r.mapError g) h') :
    Meets h (x.mapError g) R' := by
  obtain ⟨h', hrun, hpost⟩ := hx
  exact ⟨h', hrun, himp _ _ hpost⟩

def Releases (x : Traced β ε α) : Prop := BlockHeap.empty.run x.ops = some BlockHeap.empty

end Traced

end Aomp.Foundations
