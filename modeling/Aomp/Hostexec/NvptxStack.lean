import Aomp.Hostexec.Ownership

/-!
# The stack on nvptx

`pop` and `push` over the nvptx compare-and-swap, which returns the old value as a boolean and
leaves `*e_val` as it is. A call may then return without a swap, or go on after one. As long as
no other wave gets between the load and the compare-and-swap, the stack is still a stack.
-/
namespace Aomp.Hostexec

open Foundations

variable {cfg : Config}

/-- `atomic64CAS_AX` and `atomic64CAS_RX` on nvptx: `(bool)__ullAtomicCAS_system(…)`. -/
def atomic64CASNvptx (mem e_val new_ptr : Word) : CasResult :=
  ⟨mem ≠ 0#64, if mem = e_val then new_ptr else mem, e_val⟩

inductive OpPc
  | idle
  | pop (at' : PopPc)
  | push (at' : PushPc)
  deriving DecidableEq

/-- A wave. `holds` (it was handed a packet that it has not put on the stack), `seen` (the
recycle count of `F` at its load) and `swaps` (of the call so far) are history. -/
structure Caller where
  pc : OpPc
  packet_ptr : Word
  F : Word
  N : Word
  holds : Bool
  seen : ℕ
  swaps : ℕ

/-- The stack and its callers. `recycled` and `returned`, the number of swaps of each call
that returned, are history. -/
structure StackState (cfg : Config) where
  top : Word
  next : ℕ → Word
  callers : Fin cfg.waves → Caller
  recycled : ℕ → ℕ
  returned : List ℕ

inductive StackAction (cfg : Config)
  /-- A wave calls `pop`, or pushes its packet with the next tag. -/
  | pop (w : Fin cfg.waves)
  | push (w : Fin cfg.waves)
  /-- A wave takes its next step. -/
  | next (w : Fin cfg.waves)

namespace StackState

@[simps -fullyApplied] def setCaller (s : StackState cfg) (w : Fin cfg.waves) (t : Caller) :
    StackState cfg :=
  { s with callers := Function.update s.callers w t }

end StackState

/-- One step of `pop` or `push`. -/
def callerStep (s : StackState cfg) (w : Fin cfg.waves) : Option (StackState cfg) :=
  let t := s.callers w
  match t.pc with
  | .idle => none
  -- pop
  | .pop .load =>
    some (s.setCaller w { t with pc := .pop .next, F := s.top, seen := s.recycled (cfg.index s.top) })
  | .pop .next => some (s.setCaller w { t with pc := .pop .cas, N := s.next (cfg.index t.F) })
  | .pop .cas =>
    let r := atomic64CASNvptx s.top t.F t.N
    let swaps := t.swaps + if s.top = t.F then 1 else 0
    if r.ok then
      some { s with
        top := r.mem
        callers := Function.update s.callers w
          { t with pc := .idle, packet_ptr := r.e_val, holds := true, swaps := swaps }
        returned := swaps :: s.returned }
    else
      some ({ s with top := r.mem }.setCaller w
        { t with pc := .pop .next, F := r.e_val, seen := s.recycled (cfg.index r.e_val), swaps := swaps })
  -- push
  | .push .load => some (s.setCaller w { t with pc := .push .link, F := s.top })
  | .push .link =>
    let ptr := incPtrTag t.packet_ptr cfg.is
    some ({ s with next := Function.update s.next (cfg.index ptr) t.F }.setCaller w
      { t with pc := .push .cas })
  | .push .cas =>
    let ptr := incPtrTag t.packet_ptr cfg.is
    let r := atomic64CASNvptx s.top t.F ptr
    let swaps := t.swaps + if s.top = t.F then 1 else 0
    let i := cfg.index t.packet_ptr
    let recycled :=
      if s.top = t.F then Function.update s.recycled i (s.recycled i + 1) else s.recycled
    if r.ok then
      some { s with
        top := r.mem
        callers := Function.update s.callers w { t with pc := .idle, holds := false, swaps := swaps }
        recycled := recycled
        returned := swaps :: s.returned }
    else
      some { s with
        top := r.mem
        callers := Function.update s.callers w
          { t with pc := .push .link, F := r.e_val, holds := t.holds && s.top ≠ t.F, swaps := swaps }
        recycled := recycled }

def stackStep (s : StackState cfg) : StackAction cfg → Option (StackState cfg)
  | .pop w =>
    if (s.callers w).pc = .idle ∧ (s.callers w).holds = false then
      some (s.setCaller w { s.callers w with pc := .pop .load, swaps := 0 })
    else none
  | .push w =>
    if (s.callers w).pc = .idle ∧ (s.callers w).holds = true then
      some (s.setCaller w { s.callers w with pc := .push .load, swaps := 0 })
    else none
  | .next w => callerStep s w

namespace StackState

variable (s : StackState cfg)

/-- The wave was handed packet `i` and has not put it on the stack. -/
def Holds (w : Fin cfg.waves) (i : ℕ) : Prop :=
  (s.callers w).holds = true ∧ cfg.index (s.callers w).packet_ptr = i

/-- Following the links from the top meets the packets in order, and then 0. -/
def Walk (xs : List ℕ) : Prop := Visits 0#64 cfg.index s.next s.top xs

/-- Each call that returned has swapped once, and each packet is on the stack or held by one
wave. -/
structure Contract : Prop where
  returned : ∀ k ∈ s.returned, k = 1
  packets : ∃ xs, s.Walk xs ∧ xs.Nodup ∧ ∀ i < cfg.num_packets,
    (i ∈ xs ∧ ∀ w, ¬ s.Holds w i) ∨ (i ∉ xs ∧ ∃! w, s.Holds w i)

/-- The stack before any call: any packets in any order and with any tags, the others held. -/
structure Start : Prop where
  idle : ∀ w, (s.callers w).pc = .idle
  returned : s.returned = []
  chain : ∃ xs, Linked 0#64 (fun i => cfg.ptr i (s.recycled i)) s.next s.top xs ∧ xs.Nodup ∧
    (∀ i ∈ xs, i < cfg.num_packets ∧ ∀ w, ¬ s.Holds w i) ∧
    ∀ i < cfg.num_packets, i ∉ xs → ∃ w, s.Holds w i
  held : ∀ w, (s.callers w).holds = true → cfg.index (s.callers w).packet_ptr < cfg.num_packets ∧
    (s.callers w).packet_ptr = cfg.ptr (cfg.index (s.callers w).packet_ptr)
      (s.recycled (cfg.index (s.callers w).packet_ptr))
  inj : ∀ w w' i, s.Holds w i → s.Holds w' i → w = w'

/-- During an attempt of `pop` the tag of the packet it loaded does not come round. -/
def NoTagWrap : Prop :=
  ∀ w, (s.callers w).pc = .pop .next ∨ (s.callers w).pc = .pop .cas →
    s.recycled (cfg.index (s.callers w).F) <
      (s.callers w).seen + tagPeriod cfg.is (cfg.index (s.callers w).F)

/-- A compare-and-swap finds the top that the wave loaded. A push onto the empty stack, which
swaps and is told that it did not, finds in its second attempt that its packet still is the
last of its chain and that the stack is not empty. -/
def Quiet : StackAction cfg → Prop
  | .next w =>
    match (s.callers w).pc with
    | .pop .cas => s.top = (s.callers w).F
    | .push .link => (s.callers w).swaps = 1 →
        s.next (cfg.index (incPtrTag (s.callers w).packet_ptr cfg.is)) = 0#64
    | .push .cas => if (s.callers w).swaps = 0 then s.top = (s.callers w).F else s.top ≠ 0#64
    | _ => True
  | _ => True

end StackState

end Aomp.Hostexec
