import Aomp.Foundations.RepeatedTrees
import Aomp.Foundations.TransitionSystem
import Aomp.Xteam.Kernel

/-!
# `_iteam_reduction` as a step machine

One team makes calls of one instantiation. The lanes of a wave run in lock-step, and one step
of a wave makes one access to shared memory or to the result; the waves interleave freely
between the two `threadsAligned` barriers of a call. `xwave_lds` keeps its contents from one
call to the next, and the tree runs over all `_NW` slots whatever the number of waves.
-/
namespace Aomp.Xteam.IntraTeam

open Foundations

variable {T : Type*}

/-- The arguments `_NW` and `_WSZ` that the extern functions instantiate for every type. -/
def instantiations : List (ℕ × ℕ) :=
  [(16, 64), (8, 64), (4, 64), (2, 64), (1, 64),
    (32, 32), (16, 32), (8, 32), (4, 32), (2, 32), (1, 32)]

/-- A team of whole waves whose threads make `calls` calls of one instantiation: the thread
`k` passes `val c k` and the iteration `k` to call `c`, and all threads pass `r_ptr c`. -/
structure Launch (T : Type*) where
  ops : Ops T
  NW : ℕ
  WSZ : ℕ
  waves : ℕ
  calls : ℕ
  val : ℕ → ℕ → T
  r_ptr : ℕ → ℕ
  instantiated : (NW, WSZ) ∈ instantiations
  waves_pow : ∃ p, waves = 2 ^ p
  waves_le : waves ≤ NW

/-- What shared memory and the results hold before the first call. -/
structure Memory (T : Type*) where
  xwave_lds : ℕ → T
  result : ℕ → T

/-- Where a wave stands. `work` is the shuffle with the store of lane 0; `own`, `other` and
`put` are the two loads and the store of `(*_rf_lds)`; `load` and `write` are the last
assignment of thread 0. -/
inductive Pc
  | work
  | sync
  | own (offset : ℕ)
  | other (offset : ℕ)
  | put (offset : ℕ)
  | load
  | write
  | endSync
  | done
  deriving DecidableEq

/-- At a barrier. -/
def Pc.waiting : Pc → Bool
  | .sync | .endSync => true
  | _ => false

/-- The registers of a wave: the call it is in, `val` of its lanes, the operands of
`(*_rf_lds)` and the loaded slot of thread 0. -/
structure Wave (T : Type*) where
  pc : Pc
  call : ℕ
  val : ℕ → T
  own : ℕ → T
  other : ℕ → T
  acc : T

/-- The head of the tree loop of the wave `w` after the offset `off`. Only thread 0 makes the
assignment after the loop. -/
def Wave.nextRound (w off : ℕ) (v : Wave T) : Wave T :=
  if 0 < off / 2 then { v with pc := .own (off / 2) }
  else if w = 0 then { v with pc := .load } else { v with pc := .endSync }

structure State (T : Type*) where
  waves : ℕ → Wave T
  xwave_lds : ℕ → T
  result : ℕ → T

def State.setWave (s : State T) (w : ℕ) (v : Wave T) : State T :=
  { s with waves := Function.update s.waves w v }

namespace Launch

variable (L : Launch T)

/-- `omp_thread_num` of lane `lane_num` of the wave `wave_num`, which is also its `k`. -/
def threadNum (wave_num lane_num : ℕ) : ℕ := wave_num * L.WSZ + lane_num

def threadVals (c wave_num : ℕ) : ℕ → T := fun lane => L.val c (L.threadNum wave_num lane)

def shuffle (val : ℕ → T) : T := butterfly L.ops.rf (L.ops.shflXor L.WSZ) (L.WSZ / 2) val 0

/-- A wave enters call `c`, or ends after the last one. -/
def enter (w c : ℕ) (v : Wave T) : Wave T :=
  if c < L.calls then { v with pc := .work, call := c, val := L.threadVals c w }
  else { v with pc := .done, call := c }

/-- What the store of `(*_rf_lds)` in the lanes below the offset leaves in `xwave_lds`. -/
def putSlots (w off : ℕ) (v : Wave T) (slots : ℕ → T) : ℕ → T := fun i =>
  if i < off ∧ i / L.WSZ = w then L.ops.rf_lds (v.own (i % L.WSZ)) (v.other (i % L.WSZ)) else slots i

def runWave (w : ℕ) (s : State T) : Option (State T) :=
  let v := s.waves w
  match v.pc with
  | .work => some { s.setWave w { v with pc := .sync } with
      xwave_lds := Function.update s.xwave_lds w (L.shuffle v.val) }
  | .own off => some <| s.setWave w { v with
      pc := .other off, own := fun lane => s.xwave_lds (L.threadNum w lane) }
  | .other off => some <| s.setWave w { v with
      pc := .put off, other := fun lane => s.xwave_lds (L.threadNum w lane + off) }
  | .put off => some { s.setWave w (v.nextRound w off) with
      xwave_lds := L.putSlots w off v s.xwave_lds }
  | .load => some <| s.setWave w { v with pc := .write, acc := s.xwave_lds 0 }
  | .write => some { s.setWave w { v with pc := .endSync } with
      result := Function.update s.result (L.r_ptr v.call) v.acc }
  | .sync | .endSync | .done => none

def pass (w : ℕ) (v : Wave T) : Wave T :=
  match v.pc with
  | .sync => v.nextRound w L.NW
  | .endSync => L.enter w (v.call + 1) v
  | _ => v

/-- A scheduler runs a wave, or opens the barrier. -/
inductive Action
  | run (wave : ℕ)
  | release
  deriving DecidableEq

def step (s : State T) : Action → Option (State T)
  | .run w => if w < L.waves then L.runWave w s else none
  | .release =>
    if ∀ w < L.waves, (s.waves w).pc.waiting then
      some { s with waves := fun w => L.pass w (s.waves w) }
    else none

/-- All waves are about to enter the first call. -/
def init (m : Memory T) : State T where
  waves w := L.enter w 0
    ⟨.done, 0, L.threadVals 0 w, L.threadVals 0 w, L.threadVals 0 w, L.ops.rnv⟩
  xwave_lds := m.xwave_lds
  result := m.result

/-- The states of all runs over all schedules. -/
def Reaches (m : Memory T) (s : State T) : Prop :=
  Reachable L.step (fun _ _ => True) (L.init m) s

theorem shape : ∃ n q, L.NW = 2 ^ n ∧ L.WSZ = 2 ^ q ∧ L.NW / 2 ≤ L.WSZ := by
  have hall : ∀ i ∈ instantiations, (∃ n < 6, i.1 = 2 ^ n) ∧ (∃ q < 7, i.2 = 2 ^ q) ∧ i.1 / 2 ≤ i.2 := by
    decide
  obtain ⟨⟨n, -, hn⟩, ⟨q, -, hq⟩, hle⟩ := hall _ L.instantiated
  exact ⟨n, q, hn, hq, hle⟩

theorem NW_pos : 0 < L.NW := by
  obtain ⟨n, -, hn, -⟩ := L.shape
  rw [hn]
  positivity

theorem waves_pos : 0 < L.waves := by
  obtain ⟨p, hp⟩ := L.waves_pow
  rw [hp]
  positivity

/-- `xwave_lds` after the stores of a call over what it held before. -/
def filled (c : ℕ) (slots : ℕ → T) : ℕ → T := fun i =>
  if i < L.waves then L.shuffle (L.threadVals c i) else slots i

/-- `xwave_lds` before call `c`. -/
def slots (m : Memory T) : ℕ → ℕ → T
  | 0 => m.xwave_lds
  | c + 1 => roundSlots L.ops.rf_lds L.NW (L.filled c (slots m c)) 1

/-- What call `c` stores in `*r_ptr`. -/
def resultValue (m : Memory T) (c : ℕ) : T :=
  pairTree L.ops.rf_lds L.NW (L.filled c (L.slots m c)) 1 0

end Launch

end Aomp.Xteam.IntraTeam
