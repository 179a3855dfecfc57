import Aomp.Xteam.Machine

/-!
# The invariant of the reduction machine

Between two barriers all waves of a team are in one phase: a round of one of the two trees,
or the stretch in which the last team loads the team values. The phase says which contents
of `xwave_lds` each wave relies on, and the lists of arrived teams say which team is the
last one of a call.
-/
namespace Aomp.Xteam

open Foundations

variable {T : Type*}

def Pc.rank : Pc → ℕ
  | .work .threads => 0
  | .sync .threads _ | .own .threads _ | .other .threads _ | .put .threads _ => 1
  | .load .threads => 2
  | .add | .saveTeam => 3
  | .inc => 4
  | .saveTd => 5
  | .tdSync => 6
  | .test => 7
  | .loadTeams => 8
  | .teamsSync => 9
  | .work .teams => 10
  | .sync .teams _ | .own .teams _ | .other .teams _ | .put .teams _ => 11
  | .load .teams => 12
  | .readResult => 13
  | .tail _ => 14
  | .writeResult => 15
  | .endSync => 16
  | .done => 0

/-- The wave has come to `pc` in call `c`, or is in a later call. -/
def Wave.Reached (pc : Pc) (c : ℕ) (v : Wave T) : Prop :=
  c < v.call ∨ c = v.call ∧ pc.rank ≤ v.pc.rank

/-- The store to `xwave_lds` of the current round is behind the wave. -/
def Pc.stored : Pc → Bool
  | .test | .work _ | .own _ _ | .other _ _ | .put _ _ => false
  | _ => true

/-- Where a team stands: in round `off` of the tree of a call, `off = number_of_waves`
being the shuffle before the tree, or in the last team's part between the test and the
second shuffle. -/
inductive Phase
  | tree (r : Round) (c off : ℕ)
  | last (c : ℕ)

/-- `td` holds the place of team `t` in call `c`. -/
def HasPlace (arrived : ℕ → List ℕ) (t c : ℕ) (td : Cell ℕ) : Prop :=
  td.call = some c ∧ (arrived c)[td.value]? = some t

def State.leader (s : State T) (t : ℕ) : Wave T := (s.teams t).waves 0

namespace Kernel

variable (K : Kernel T)

/-- Team `t` was the last one to increment the counter of call `c`. -/
def LastTeam (arrived : ℕ → List ℕ) (c t : ℕ) : Prop := (arrived c)[K.NumTeams - 1]? = some t

/-- What a launch has to provide: the plain reduction needs a counter that starts at 0 and
a `team_vals` array for each call, and the fast one must not use `xwave_lds` again. -/
structure Undisturbed (m : Memory T) : Prop where
  tvs : K.IS_FAST = false → ∀ c < K.calls, ∀ c' < K.calls, K.tvs c = K.tvs c' → c = c'
  td : K.IS_FAST = false → ∀ c < K.calls, ∀ c' < K.calls, K.td c = K.td c' → c = c'
  teams_done : K.IS_FAST = false → ∀ c < K.calls, m.teams_done (K.td c) = 0
  fast : K.IS_FAST = true → K.number_of_waves = 1 ∨ K.calls ≤ 1

def PhaseInv (arrived : ℕ → List ℕ) (t : ℕ) : Phase → Prop
  | .tree r c off => (∃ j, K.number_of_waves = off * 2 ^ j) ∧
      (c < K.calls ∨ r = .threads ∧ c = K.calls ∧ off = K.number_of_waves) ∧
      (r = .teams → K.IS_FAST = false ∧ K.LastTeam arrived c t)
  | .last c => c < K.calls ∧ K.IS_FAST = false ∧ K.LastTeam arrived c t

/-- What the wave `w` of team `t` knows at its program counter. -/
def WaveInv (r₀ : ℕ → T) (arrived : ℕ → List ℕ) (t : ℕ) (ph : Phase) (td : Cell ℕ) (w : ℕ)
    (v : Wave T) : Prop :=
  (v.pc ≠ .done → v.call < K.calls) ∧
  match v.pc with
  | .work r => ph = .tree r v.call K.number_of_waves ∧ v.val = K.laneVals r v.call t w
  | .sync r off => ph = .tree r v.call (2 * off) ∧ 0 < off
  | .own r off => ph = .tree r v.call off ∧ off < K.number_of_waves
  | .other r off => ph = .tree r v.call off ∧ off < K.number_of_waves ∧
      ∀ l < K.WSZ, K.threadNum w l < off →
        v.own l = K.ldsValue r v.call t (2 * off) (K.threadNum w l)
  | .put r off => ph = .tree r v.call off ∧ off < K.number_of_waves ∧
      ∀ l < K.WSZ, K.threadNum w l < off →
        v.own l = K.ldsValue r v.call t (2 * off) (K.threadNum w l) ∧
        v.other l = K.ldsValue r v.call t (2 * off) (K.threadNum w l + off)
  | .load r => ph = .tree r v.call 1 ∧ w = 0
  | .add => ph = .tree .threads v.call 1 ∧ w = 0 ∧ K.IS_FAST = true ∧
      v.acc = K.teamValue v.call t
  | .saveTeam => ph = .tree .threads v.call 1 ∧ w = 0 ∧ K.IS_FAST = false ∧
      v.acc = K.teamValue v.call t
  | .inc => ph = .tree .threads v.call 1 ∧ w = 0 ∧ K.IS_FAST = false
  | .saveTd => ph = .tree .threads v.call 1 ∧ w = 0 ∧ K.IS_FAST = false ∧
      (arrived v.call)[v.old]? = some t
  | .tdSync => ph = .tree .threads v.call 1 ∧ K.IS_FAST = false ∧
      (w = 0 → HasPlace arrived t v.call td)
  | .test => K.IS_FAST = false ∧ HasPlace arrived t v.call td ∧
      (td.value = K.NumTeams - 1 ∧ ph = .last v.call ∨
        td.value ≠ K.NumTeams - 1 ∧ ph = .tree .threads (v.call + 1) K.number_of_waves)
  | .loadTeams => ph = .last v.call
  | .teamsSync => ph = .last v.call ∧ v.val = K.laneVals .teams v.call t w
  | .readResult => ph = .tree .teams v.call 1 ∧ w = 0 ∧
      v.acc = K.ldsValue .teams v.call 0 1 0
  | .tail off => ph = .tree .teams v.call 1 ∧ w = 0 ∧ K.block_size ≤ off ∧
      v.acc = K.tailValue v.call (r₀ v.call) off ∧ (off ≤ K.NumTeams ∨ off = K.block_size)
  | .writeResult => ph = .tree .teams v.call 1 ∧ w = 0 ∧
      v.acc = K.resultValue v.call (r₀ v.call)
  | .endSync => ph = .tree .teams v.call 1
  | .done => v.call = K.calls ∧ (ph = .tree .threads K.calls K.number_of_waves ∨
      K.IS_FAST = true ∧ 1 < K.number_of_waves ∧ ph = .tree .threads 0 1)

/-- The wave that stores to `xwave_lds[i]` in a round. -/
def owner (off i : ℕ) : ℕ := if off = K.number_of_waves then i else i / K.WSZ

/-- What `xwave_lds` holds in a round: the new value where the owner has stored, the value
of the round before elsewhere. -/
def LdsInv (t : ℕ) (b : Team T) : Phase → Prop
  | .tree r c off => c < K.calls → ∀ i,
      (i < off → (b.waves (K.owner off i)).pc.stored = true →
        b.xwave_lds i = ⟨K.ldsValue r c t off i, some c⟩) ∧
      (off < K.number_of_waves → i < 2 * off →
        (off ≤ i ∨ (b.waves (i / K.WSZ)).pc.stored = false) →
        b.xwave_lds i = ⟨K.ldsValue r c t (2 * off) i, some c⟩)
  | .last _ => True

structure TeamInv (r₀ : ℕ → T) (arrived : ℕ → List ℕ) (t : ℕ) (b : Team T) (ph : Phase) :
    Prop where
  phase : K.PhaseInv arrived t ph
  wave : ∀ w < K.number_of_waves, K.WaveInv r₀ arrived t ph b.td w (b.waves w)
  lds : K.LdsInv t b ph

/-- The result of call `c` is written. -/
def Written (s : State T) (c : ℕ) : Prop :=
  ∃ t, K.LastTeam s.arrived c t ∧ (s.leader t).Reached .endSync c

structure Inv (m : Memory T) (s : State T) : Prop where
  team : ∀ t < K.NumTeams, ∃ ph, K.TeamInv m.r_ptr s.arrived t (s.teams t) ph
  nodup : ∀ c, (s.arrived c).Nodup
  mem_arrived : ∀ c t, t ∈ s.arrived c ↔ t < K.NumTeams ∧ (s.leader t).Reached .saveTd c
  teams_done : K.IS_FAST = false → ∀ c < K.calls, s.teams_done (K.td c) =
    if (s.arrived c).length = K.NumTeams then 0 else (s.arrived c).length
  team_vals : K.IS_FAST = false → ∀ c < K.calls, ∀ t < K.NumTeams,
    (s.leader t).Reached .inc c → s.team_vals (K.tvs c) t = K.teamValue c t
  written : K.IS_FAST = false → ∀ c < K.calls, K.Written s c →
    s.r_ptr c = K.resultValue c (m.r_ptr c) ∧ ∃ t, s.writers c = [t]
  unwritten : K.IS_FAST = false → ∀ c < K.calls, ¬ K.Written s c →
    s.r_ptr c = m.r_ptr c ∧ s.writers c = []
  added : K.IS_FAST = true → ∀ c < K.calls, s.r_ptr c =
    (s.arrived c).foldl (fun a t => K.ops.add a (K.teamValue c t)) (m.r_ptr c)
  reads : ∀ p ∈ s.reads, p.2 = some p.1
  tests : ∀ p ∈ s.tests, p.team ∈ s.arrived p.call ∧
    (p.last = true ↔ K.LastTeam s.arrived p.call p.team)

end Kernel

end Aomp.Xteam
