import Aomp.Foundations.TransitionSystem
import Aomp.Xteam.Kernel

/-!
# `_xteam_reduction` as a step machine

The lanes of a wave run in lock-step; one step of a wave makes one access to shared or
global memory. The waves of all teams interleave freely, and a team passes a
`threadsAligned` barrier when all its waves wait. Shared memory keeps its contents from
one call to the next. The last fields of the state only record what happened.
-/
namespace Aomp.Xteam

open Foundations

variable {T : Type*}

/-- Where a wave stands. `own`, `other` and `put` are the two loads and the store of
`(*_rf_lds)`; from `load` to `inc` and from `readResult` to `writeResult` only thread 0
runs. -/
inductive Pc
  | work (r : Round)
  | sync (r : Round) (offset : ℕ)
  | own (r : Round) (offset : ℕ)
  | other (r : Round) (offset : ℕ)
  | put (r : Round) (offset : ℕ)
  | load (r : Round)
  | add
  | saveTeam
  | inc
  | saveTd
  | tdSync
  | test
  | loadTeams
  | teamsSync
  | readResult
  | tail (offset : ℕ)
  | writeResult
  | endSync
  | done
  deriving DecidableEq

/-- At a barrier. -/
def Pc.waiting : Pc → Bool
  | .sync _ _ | .tdSync | .teamsSync | .endSync => true
  | _ => false

/-- The registers of a wave: the call it is in, `val` of its lanes, the operands of
`(*_rf_lds)`, and in thread 0 a loaded value and the old value of the counter. -/
structure Wave (T : Type*) where
  pc : Pc
  call : ℕ
  val : ℕ → T
  own : ℕ → T
  other : ℕ → T
  acc : T
  old : ℕ

/-- A word of shared memory and the call that wrote it, `none` before the first call. -/
structure Cell (V : Type*) where
  value : V
  call : Option ℕ

structure Team (T : Type*) where
  waves : ℕ → Wave T
  xwave_lds : ℕ → Cell T
  td : Cell ℕ

/-- One wave of a team evaluated `td == NumTeams - 1` in a call. -/
structure Test where
  team : ℕ
  call : ℕ
  last : Bool

structure State (T : Type*) where
  teams : ℕ → Team T
  team_vals : ℕ → ℕ → T
  teams_done : ℕ → ℕ
  r_ptr : ℕ → T
  /-- the teams that incremented the counter (or added to the result) of a call, in order -/
  arrived : ℕ → List ℕ
  /-- the teams that stored the result of a call -/
  writers : ℕ → List ℕ
  /-- the call of each read of shared memory with the call that wrote the value -/
  reads : List (ℕ × Option ℕ)
  tests : List Test

/-- What memory holds before the first call. -/
structure Memory (T : Type*) where
  xwave_lds : ℕ → ℕ → T
  td : ℕ → ℕ
  team_vals : ℕ → ℕ → T
  teams_done : ℕ → ℕ
  r_ptr : ℕ → T

def Team.setWave (b : Team T) (w : ℕ) (v : Wave T) : Team T :=
  { b with waves := Function.update b.waves w v }

def State.setTeam (s : State T) (t : ℕ) (b : Team T) (reads : List (ℕ × Option ℕ))
    (tests : List Test) : State T :=
  { s with
    teams := Function.update s.teams t b, reads := reads ++ s.reads, tests := tests ++ s.tests }

namespace Kernel

variable (K : Kernel T)

/-- A wave enters call `c`, or ends after the last one. -/
def enter (t w c : ℕ) (v : Wave T) : Wave T :=
  if c < K.calls then { v with pc := .work .threads, call := c, val := K.threadVals c t w }
  else { v with pc := .done, call := c }

def leave (t w : ℕ) (r : Round) (v : Wave T) : Wave T :=
  if w = 0 then { v with pc := .load r }
  else match r with
    | .threads => if K.IS_FAST then K.enter t w (v.call + 1) v else { v with pc := .tdSync }
    | .teams => { v with pc := .endSync }

/-- The head of the tree loop after the round with offset `off`. -/
def nextRound (t w : ℕ) (r : Round) (off : ℕ) (v : Wave T) : Wave T :=
  if 0 < off / 2 then { v with pc := .sync r (off / 2) } else K.leave t w r v

/-- The lanes of a wave with `omp_thread_num < off`. -/
def lanes (w off : ℕ) : List ℕ := (List.range K.WSZ).filter fun lane => K.threadNum w lane < off

/-- One step of the wave `w` of team `t`. -/
def runWave (t w : ℕ) (s : State T) : Option (State T) :=
  let b := s.teams t
  let v := b.waves w
  let c := v.call
  match v.pc with
  | .work r => some <| s.setTeam t { b.setWave w (K.nextRound t w r K.number_of_waves v) with
      xwave_lds := Function.update b.xwave_lds w ⟨K.waveValue v.val, some c⟩ } [] []
  | .own r off => some <| s.setTeam t (b.setWave w { v with
      pc := .other r off, own := fun lane => (b.xwave_lds (K.threadNum w lane)).value })
      ((K.lanes w off).map fun lane => (c, (b.xwave_lds (K.threadNum w lane)).call)) []
  | .other r off => some <| s.setTeam t (b.setWave w { v with
      pc := .put r off, other := fun lane => (b.xwave_lds (K.threadNum w lane + off)).value })
      ((K.lanes w off).map fun lane => (c, (b.xwave_lds (K.threadNum w lane + off)).call)) []
  | .put r off => some <| s.setTeam t { b.setWave w (K.nextRound t w r off v) with
      xwave_lds := fun i => if i < off ∧ i / K.WSZ = w then
        ⟨K.ops.rf_lds (v.own (i % K.WSZ)) (v.other (i % K.WSZ)), some c⟩ else b.xwave_lds i } [] []
  | .load .threads => some <| s.setTeam t (b.setWave w { v with
      pc := if K.IS_FAST then .add else .saveTeam, acc := (b.xwave_lds 0).value })
      [(c, (b.xwave_lds 0).call)] []
  | .load .teams => some <| s.setTeam t (b.setWave w { v with
      pc := .readResult, acc := (b.xwave_lds 0).value }) [(c, (b.xwave_lds 0).call)] []
  | .add => some { s.setTeam t (b.setWave w (K.enter t w (c + 1) v)) [] [] with
      r_ptr := Function.update s.r_ptr c (K.ops.add (s.r_ptr c) v.acc)
      arrived := Function.update s.arrived c (s.arrived c ++ [t]) }
  | .saveTeam => some { s.setTeam t (b.setWave w { v with pc := .inc }) [] [] with
      team_vals := Function.update s.team_vals (K.tvs c)
        (Function.update (s.team_vals (K.tvs c)) t v.acc) }
  | .inc => some { s.setTeam t (b.setWave w { v with
        pc := .saveTd, old := s.teams_done (K.td c) }) [] [] with
      teams_done := Function.update s.teams_done (K.td c)
        (if s.teams_done (K.td c) ≥ K.NumTeams - 1 then 0 else s.teams_done (K.td c) + 1)
      arrived := Function.update s.arrived c (s.arrived c ++ [t]) }
  | .saveTd => some <| s.setTeam t { b.setWave w { v with pc := .tdSync } with
      td := ⟨v.old, some c⟩ } [] []
  | .test => some <| s.setTeam t (b.setWave w (if b.td.value = K.NumTeams - 1 then
        { v with pc := .loadTeams } else K.enter t w (c + 1) v))
      [(c, b.td.call)] [⟨t, c, b.td.value = K.NumTeams - 1⟩]
  | .loadTeams => some <| s.setTeam t (b.setWave w { v with
      pc := .teamsSync
      val := fun lane => if K.threadNum w lane < K.NumTeams then
        s.team_vals (K.tvs c) (K.threadNum w lane) else K.ops.rnv }) [] []
  | .readResult => some <| s.setTeam t (b.setWave w { v with
      pc := .tail K.block_size, acc := K.ops.rf v.acc (s.r_ptr c) }) [] []
  | .tail off => some <| s.setTeam t (b.setWave w (if off < K.NumTeams then
      { v with pc := .tail (off + 1), acc := K.ops.rf v.acc (s.team_vals (K.tvs c) off) }
      else { v with pc := .writeResult })) [] []
  | .writeResult => some { s.setTeam t (b.setWave w { v with pc := .endSync }) [] [] with
      r_ptr := Function.update s.r_ptr c v.acc
      writers := Function.update s.writers c (s.writers c ++ [t]) }
  | .sync _ _ | .tdSync | .teamsSync | .endSync | .done => none

def pass (t w : ℕ) (v : Wave T) : Wave T :=
  match v.pc with
  | .sync r off => { v with pc := .own r off }
  | .tdSync => { v with pc := .test }
  | .teamsSync => { v with pc := .work .teams }
  | .endSync => K.enter t w (v.call + 1) v
  | _ => v

/-- A scheduler runs a wave, or opens the barrier of a team. -/
inductive Action
  | run (team wave : ℕ)
  | release (team : ℕ)
  deriving DecidableEq

def step (s : State T) : Action → Option (State T)
  | .run t w => if t < K.NumTeams ∧ w < K.number_of_waves then K.runWave t w s else none
  | .release t =>
    if t < K.NumTeams ∧ ∀ w < K.number_of_waves, ((s.teams t).waves w).pc.waiting then
      some <| s.setTeam t { s.teams t with waves := fun w => K.pass t w ((s.teams t).waves w) } [] []
    else none

/-- All waves are about to enter the first call. -/
def init (m : Memory T) : State T where
  teams t := ⟨fun w => K.enter t w 0 ⟨.done, 0, K.threadVals 0 t w, K.threadVals 0 t w,
    K.threadVals 0 t w, K.ops.rnv, 0⟩, fun i => ⟨m.xwave_lds t i, none⟩, ⟨m.td t, none⟩⟩
  team_vals := m.team_vals
  teams_done := m.teams_done
  r_ptr := m.r_ptr
  arrived _ := []
  writers _ := []
  reads := []
  tests := []

/-- The states of all runs over all schedules. -/
def Reaches (m : Memory T) (s : State T) : Prop :=
  Reachable K.step (fun _ _ => True) (K.init m) s

/-- All threads have returned from the last call. -/
def Finished (s : State T) : Prop :=
  ∀ t < K.NumTeams, ∀ w < K.number_of_waves, ((s.teams t).waves w).pc = .done

end Kernel

end Aomp.Xteam
