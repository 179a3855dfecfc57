import Aomp.Arguments.Walk
import Aomp.Foundations.BlockHeap

/-!
# The blocks behind a `va_list`

The services of `printf` and `fprintf` once more, with what they do to the heap: the register
save area and the overflow areas are allocated while the list is built, and freed by the caller
behind the call of `vprintf`.
-/
namespace Aomp.Arguments

open Foundations

/-- The register save area, and the overflow area of a size: every next one is larger. -/
inductive Block
  | regs
  | overflow (size : ℕ)
  deriving DecidableEq

namespace Heap

open Traced

/-- The allocation, the `memset`, and where there is an area already its `memcpy` and `free`. -/
def hostrpc_pfGetOverflow (malloc : ℕ → Bool) (needsize : ℕ) (v : Valist) :
    Traced Block ServiceRc Valist :=
  if needsize < v.overflow_size then ok v
  else
    let stacksize := if v.overflow_size = 0 then
        (if needsize > FPREGSZ * 8 * 2 then needsize else FPREGSZ * 8 * 2)
      else v.overflow_size * 2
    if malloc stacksize then
      (perform (.malloc (.overflow stacksize) stacksize)).bind fun _ =>
      (perform (.store (.overflow stacksize) 0 stacksize)).bind fun _ =>
      (if v.overflow_size = 0 then ok ()
        else (perform (.store (.overflow stacksize) 0 v.overflow_size)).bind fun _ =>
          perform (.free (.overflow v.overflow_size))).bind fun _ =>
      ok { v with
        overflow_arg_area := fun i => if i < v.overflow_size then v.overflow_arg_area i else 0
        overflow_size := stacksize }
    else fail .RC_STATUS_ERROR

def hostrpc_pfAdd (malloc : ℕ → Bool) (cls : RegClass) (word : ℕ) (v : Valist) :
    Traced Block ServiceRc Valist :=
  if v.offset cls + cls.slot ≤ cls.limit then
    (perform (.store .regs (v.offset cls) 8)).bind fun _ => ok (v.saveRegister cls word)
  else
    (hostrpc_pfGetOverflow malloc (v.stacksize + 8) v).bind fun u =>
      (perform (.store (.overflow u.overflow_size) u.stacksize 8)).bind fun _ =>
        ok (u.saveOverflow word)

def hostrpc_pfAddInteger (malloc : ℕ → Bool) (mem : ℕ → Byte) (val valsize : ℕ) (v : Valist) :
    Traced Block ServiceRc Valist :=
  match valsize with
  | 1 => hostrpc_pfAdd malloc .gp (readLE mem val 1) v
  | 2 => hostrpc_pfAdd malloc .gp (readLE mem val 4) v
  | 4 => hostrpc_pfAdd malloc .gp (readLE mem val 4) v
  | 8 => hostrpc_pfAdd malloc .gp (readLE mem val 8) v
  | _ => fail .RC_STATUS_ERROR

def hostrpc_pfAddFloat (malloc : ℕ → Bool) (mem : ℕ → Byte) (numdata valsize : ℕ) (v : Valist) :
    Traced Block ServiceRc Valist :=
  match valsize with
  | 4 => hostrpc_pfAdd malloc .fp
      (Float32.ofBits (UInt32.ofNat (readLE mem numdata 4))).toFloat.toBits.toNat v
  | 8 => hostrpc_pfAdd malloc .fp (readLE mem numdata 8) v
  | _ => fail .RC_STATUS_ERROR

def pfAddSlot (malloc : ℕ → Bool) (mem : ℕ → Byte) (slot : Slot) (v : Valist) :
    Traced Block Failure Valist :=
  match slot with
  | .float dataptr num_bytes =>
    (hostrpc_pfAddFloat malloc mem dataptr num_bytes (v.start .fp)).mapError
      fun _ => .rc .RC_ADDFLOAT_ERROR
  | .integer dataptr num_bytes =>
    (hostrpc_pfAddInteger malloc mem dataptr num_bytes v).mapError fun _ => .rc .RC_ADDINT_ERROR
  | .string strptr => (hostrpc_pfAdd malloc .gp strptr v).mapError fun _ => .rc .RC_ADDSTRING_ERROR

def argLoop (malloc : ℕ → Bool) (mem : ℕ → Byte) : ℕ → Cursor → Valist → Traced Block Failure Valist
  | 0, _, v => ok v
  | n + 1, c, v =>
    match nextArg mem c with
    | .error e => fail e
    | .ok (slot, c) => (pfAddSlot malloc mem slot v).bind (argLoop malloc mem n c)

def hostrpc_pfBuildValist (malloc : ℕ → Bool) (mem : ℕ → Byte) (NumArgs : ℕ) (c : Cursor) :
    Traced Block Failure Valist :=
  if malloc sizeofRegSaveArea then
    (perform (.malloc .regs sizeofRegSaveArea)).bind fun _ =>
    (perform (.store .regs 0 sizeofRegSaveArea)).bind fun _ =>
    argLoop malloc mem NumArgs c Valist.empty
  else fail (.rc .RC_STATUS_ERROR)

def finish (call : Valist → PrintCall) (build : Traced Block Failure Valist) :
    Traced Block Failure PrintCall :=
  (build.mapError Failure.invalid).bind fun v =>
    (perform (.free .regs)).bind fun _ =>
    (if v.overflow_size = 0 then ok () else perform (.free (.overflow v.overflow_size))).bind fun _ =>
    ok (call v)

def hostrpc_printf (malloc : ℕ → Bool) (mem : ℕ → Byte) (buf bufsz : ℕ) :
    Traced Block Failure (Option PrintCall) :=
  if bufsz = 0 then ok none
  else
    let h := header mem buf
    let c := h.cursor
    if h.NumArgs ≤ 0 then fail (.rc .RC_ERROR_INVALID_REQUEST)
    else
      let strsz := readLE mem c.dataptr 4
      let rest : Cursor :=
        ⟨c.keyptr + 4, c.dataptr + 4, c.strptr + strsz, sizeT (c.data_not_used - 4)⟩
      (finish (fun v => ⟨none, c.strptr, v.rollBack⟩)
        (hostrpc_pfBuildValist malloc mem (h.NumArgs - 1).toNat rest)).bind fun call => ok (some call)

def hostrpc_fprintf (malloc : ℕ → Bool) (mem : ℕ → Byte) (buf : ℕ) :
    Traced Block Failure PrintCall :=
  let h := header mem buf
  let c := h.cursor
  let dataptr := c.dataptr + c.dataptr % 8
  let fileptr := readLE mem dataptr 8
  let strsz := readLE mem (dataptr + 8) 4
  let rest : Cursor :=
    ⟨c.keyptr + 8, dataptr + 8 + 4, c.strptr + strsz, sizeT (c.data_not_used - 12)⟩
  finish (fun v => ⟨some fileptr, c.strptr, v.rollBack⟩)
    (hostrpc_pfBuildValist malloc mem (h.NumArgs - 2).toNat rest)

variable {malloc : ℕ → Bool} {mem : ℕ → Byte} {v : Valist}

theorem result_pfGetOverflow (needsize : ℕ) :
    (hostrpc_pfGetOverflow malloc needsize v).result =
      Arguments.hostrpc_pfGetOverflow malloc needsize v := by
  unfold hostrpc_pfGetOverflow Arguments.hostrpc_pfGetOverflow
  dsimp only
  split_ifs <;> rfl

theorem result_pfAdd (cls : RegClass) (word : ℕ) : (hostrpc_pfAdd malloc cls word v).result =
    Arguments.hostrpc_pfAdd malloc cls word v := by
  unfold hostrpc_pfAdd Arguments.hostrpc_pfAdd
  rw [← result_pfGetOverflow]
  split_ifs
  · rfl
  · rw [result_bind]
    rfl

theorem result_pfAddInteger (val valsize : ℕ) : (hostrpc_pfAddInteger malloc mem val valsize v).result =
    Arguments.hostrpc_pfAddInteger malloc mem val valsize v := by
  unfold hostrpc_pfAddInteger Arguments.hostrpc_pfAddInteger
  split
  · apply result_pfAdd
  · apply result_pfAdd
  · apply result_pfAdd
  · apply result_pfAdd
  · simp [fail, *]

theorem result_pfAddFloat (numdata valsize : ℕ) :
    (hostrpc_pfAddFloat malloc mem numdata valsize v).result =
    Arguments.hostrpc_pfAddFloat malloc mem numdata valsize v := by
  unfold hostrpc_pfAddFloat Arguments.hostrpc_pfAddFloat
  split
  · apply result_pfAdd
  · apply result_pfAdd
  · simp [fail, *]

theorem result_pfAddSlot (slot : Slot) : (pfAddSlot malloc mem slot v).result =
    Arguments.pfAddSlot malloc mem slot v := by
  cases slot with
  | float dataptr num_bytes =>
    simp only [pfAddSlot, Arguments.pfAddSlot, result_mapError, result_pfAddFloat]
  | integer dataptr num_bytes =>
    simp only [pfAddSlot, Arguments.pfAddSlot, result_mapError, result_pfAddInteger]
  | string strptr =>
    simp only [pfAddSlot, Arguments.pfAddSlot, result_mapError, result_pfAdd, hostrpc_pfAddString]

theorem result_argLoop (n : ℕ) (c : Cursor) (v : Valist) : (argLoop malloc mem n c v).result =
    Arguments.argLoop mem (Arguments.pfAddSlot malloc mem) n c v := by
  induction n generalizing c v with
  | zero => rfl
  | succ n ih =>
    rw [argLoop, Arguments.argLoop]
    cases nextArg mem c with
    | error e => rfl
    | ok next =>
      simp only [result_bind, result_pfAddSlot, ih]

theorem result_pfBuildValist (n : ℕ) (c : Cursor) : (hostrpc_pfBuildValist malloc mem n c).result =
    Arguments.hostrpc_pfBuildValist malloc mem n c := by
  unfold hostrpc_pfBuildValist Arguments.hostrpc_pfBuildValist
  split_ifs
  · exact result_argLoop n c _
  · rfl

theorem result_finish (call : Valist → PrintCall) (build : Traced Block Failure Valist) :
    (finish call build).result = (build.result.mapError Failure.invalid).map call := by
  unfold finish
  rw [result_bind]
  show (build.result.mapError Failure.invalid).bind _ = _
  cases build.result with
  | error e => rfl
  | ok v =>
    simp only [Except.mapError, Except.bind, result_bind]
    split_ifs <;> rfl

def holding (v : Valist) : BlockHeap Block
  | .regs => some sizeofRegSaveArea
  | .overflow size => if size = v.overflow_size ∧ size ≠ 0 then some size else none

theorem holding_regs (v : Valist) : holding v .regs = some sizeofRegSaveArea := rfl

theorem holding_overflow (hsize : v.overflow_size ≠ 0) :
    holding v (.overflow v.overflow_size) = some v.overflow_size := if_pos ⟨rfl, hsize⟩

theorem holding_other {size : ℕ} (hsize : size ≠ v.overflow_size) :
    holding v (.overflow size) = none := if_neg fun h => hsize h.1

theorem step_malloc {h : BlockHeap Block} {b : Block} (hb : h b = none) (size : ℕ) :
    h.step (.malloc b size) = some (Function.update h b (some size)) := if_pos hb

theorem step_store {h : BlockHeap Block} {b : Block} {size off len : ℕ} (hb : h b = some size)
    (hroom : off + len ≤ size) : h.step (.store b off len) = some h :=
  if_pos ⟨size, hb, hroom⟩

theorem step_free {h : BlockHeap Block} {b : Block} {size : ℕ} (hb : h b = some size) :
    h.step (.free b) = some (Function.update h b none) := if_neg (by simp [hb])

/-- A larger area takes the place of the old one. -/
theorem holding_grow {u : Valist} (hsize : v.overflow_size < u.overflow_size) :
    Function.update (Function.update (holding v) (.overflow u.overflow_size) (some u.overflow_size))
      (.overflow v.overflow_size) none = holding u := by
  funext b
  cases b with
  | regs => rfl
  | overflow size =>
    by_cases hv : size = v.overflow_size
    · subst hv
      rw [Function.update_self, holding_other hsize.ne]
    · rw [Function.update_of_ne (by simpa using hv)]
      by_cases hu : size = u.overflow_size
      · subst hu
        rw [Function.update_self, holding_overflow (by omega)]
      · rw [Function.update_of_ne (by simpa using hu), holding_other hv, holding_other hu]

/-- The first area. -/
theorem holding_first {u : Valist} (hzero : v.overflow_size = 0) (hsize : u.overflow_size ≠ 0) :
    Function.update (holding v) (.overflow u.overflow_size) (some u.overflow_size) = holding u := by
  funext b
  cases b with
  | regs => rfl
  | overflow size =>
    by_cases hu : size = u.overflow_size
    · subst hu
      rw [Function.update_self, holding_overflow hsize]
    · rw [Function.update_of_ne (by simpa using hu), holding_other hu]
      exact if_neg fun h => h.2 (h.1.trans hzero)

def AtGrowth (v : Valist) : Except ServiceRc Valist → BlockHeap Block → Prop
  | .ok u, h => h = holding u
  | .error _, h => h = holding v

theorem meets_pfGetOverflow {needsize : ℕ} (hneed : needsize ≠ 0) :
    Meets (holding v) (hostrpc_pfGetOverflow malloc needsize v) (AtGrowth v) := by
  unfold hostrpc_pfGetOverflow
  by_cases hfits : needsize < v.overflow_size
  · rw [if_pos hfits]
    exact meets_ok rfl
  rw [if_neg hfits]
  dsimp only
  generalize hstack : (if v.overflow_size = 0 then
    (if needsize > FPREGSZ * 8 * 2 then needsize else FPREGSZ * 8 * 2)
      else v.overflow_size * 2) = stacksize
  have hlarger : v.overflow_size < stacksize := by
    have hpos := Nat.pos_of_ne_zero hneed
    rw [← hstack]
    unfold FPREGSZ
    split_ifs <;> omega
  by_cases hmalloc : malloc stacksize
  swap
  · rw [if_neg hmalloc]
    exact meets_fail rfl
  rw [if_pos hmalloc]
  have hlive : Function.update (holding v) (.overflow stacksize) (some stacksize)
      (.overflow stacksize) = some stacksize := Function.update_self ..
  apply meets_step (step_malloc (holding_other hlarger.ne') stacksize)
  apply meets_step (step_store hlive (zero_add stacksize).le)
  by_cases hzero : v.overflow_size = 0
  · rw [if_pos hzero]
    exact meets_ok (holding_first (u := { v with overflow_size := stacksize }) hzero
      (Nat.ne_zero_of_lt hlarger))
  · rw [if_neg hzero]
    have hold : Function.update (holding v) (.overflow stacksize) (some stacksize)
        (.overflow v.overflow_size) = some v.overflow_size := by
      rw [Function.update_of_ne (by simpa using hlarger.ne), holding_overflow hzero]
    have hfreed : Function.update (Function.update (holding v) (.overflow stacksize) (some stacksize))
        (.overflow v.overflow_size) none = holding { v with overflow_size := stacksize } :=
      holding_grow (u := { v with overflow_size := stacksize }) hlarger
    rw [Traced.bind_assoc]
    apply meets_step (step_store hlive (by omega))
    apply meets_step (step_free hold)
    exact meets_ok hfreed

/-- Whether an argument was added or not, the blocks are those of a list. -/
def AtList {ε : Type*} : Except ε Valist → BlockHeap Block → Prop
  | .ok w, h => h = holding w
  | .error _, h => ∃ u, h = holding u

theorem holding_start (cls : RegClass) (v : Valist) : holding (v.start cls) = holding v := by
  cases cls <;> rfl

theorem limit_le (cls : RegClass) : cls.limit ≤ sizeofRegSaveArea := by
  cases cls <;> decide

theorem eight_le_slot (cls : RegClass) : 8 ≤ cls.slot := by
  cases cls <;> decide

theorem meets_pfAdd (hv : v.Sound) (cls : RegClass) (word : ℕ) :
    Meets (holding v) (hostrpc_pfAdd malloc cls word v) AtList := by
  unfold hostrpc_pfAdd
  by_cases hfits : v.offset cls + cls.slot ≤ cls.limit
  · rw [if_pos hfits]
    have hlimit := limit_le cls
    have hslot := eight_le_slot cls
    apply meets_step (step_store (holding_regs v) (by omega))
    apply meets_ok
    cases cls <;> rfl
  · rw [if_neg hfits]
    apply Meets.bind (meets_pfGetOverflow (Nat.succ_ne_zero _)).with_result
    · rintro u _ ⟨hresult, rfl⟩
      rw [result_pfGetOverflow] at hresult
      obtain ⟨area, size, hgrow, hroom, hpos, -⟩ := hostrpc_pfGetOverflow_spec (fun _ => rfl) hv
      obtain rfl := Except.ok.inj ((pfGetOverflow_of_ok hresult.symm).symm.trans hgrow)
      apply meets_step (step_store (holding_overflow (by dsimp only; omega)) hroom)
      exact meets_ok rfl
    · rintro e _ ⟨-, rfl⟩
      exact ⟨v, rfl⟩

theorem AtList.mapError {ε ε' : Type*} (f : ε → ε') {r : Except ε Valist} {h : BlockHeap Block}
    (hr : AtList r h) : AtList (r.mapError f) h := by
  cases r <;> exact hr

theorem atList_error {ε : Type*} (e : ε) (v : Valist) : AtList (.error e) (holding v) := ⟨v, rfl⟩

theorem meets_pfAddSlot (hv : v.Sound) (slot : Slot) :
    Meets (holding v) (pfAddSlot malloc mem slot v) AtList := by
  cases slot with
  | float dataptr num_bytes =>
    have hstart := start_sound .fp hv
    refine Meets.mapError (R := AtList) ?_ fun r h => AtList.mapError _
    rw [← holding_start .fp v]
    unfold hostrpc_pfAddFloat
    split
    · exact meets_pfAdd hstart _ _
    · exact meets_pfAdd hstart _ _
    · exact meets_fail (atList_error _ _)
  | integer dataptr num_bytes =>
    refine Meets.mapError (R := AtList) ?_ fun r h => AtList.mapError _
    unfold hostrpc_pfAddInteger
    split
    · exact meets_pfAdd hv _ _
    · exact meets_pfAdd hv _ _
    · exact meets_pfAdd hv _ _
    · exact meets_pfAdd hv _ _
    · exact meets_fail (atList_error _ _)
  | string strptr =>
    exact Meets.mapError (R := AtList) (meets_pfAdd hv _ _) fun r h => AtList.mapError _

theorem meets_argLoop (hv : v.Sound) (n : ℕ) (c : Cursor) :
    Meets (holding v) (argLoop malloc mem n c v) AtList := by
  induction n generalizing c v with
  | zero => exact meets_ok rfl
  | succ n ih =>
    rw [argLoop]
    cases nextArg mem c with
    | error e => exact meets_fail (atList_error _ _)
    | ok next =>
      apply Meets.bind (meets_pfAddSlot hv next.1).with_result
      · rintro w _ ⟨hresult, rfl⟩
        rw [result_pfAddSlot] at hresult
        exact ih (pfAddSlot_sound hv hresult.symm) next.2
      · rintro e _ ⟨-, hlist⟩
        exact hlist

/-- A list that is not built has blocks unless the first allocation failed. -/
def AtBuild (malloc : ℕ → Bool) : Except Failure Valist → BlockHeap Block → Prop
  | .ok w, h => h = holding w
  | .error _, h => if malloc sizeofRegSaveArea then ∃ u, h = holding u else h = BlockHeap.empty

theorem meets_pfBuildValist (malloc : ℕ → Bool) (mem : ℕ → Byte) (n : ℕ) (c : Cursor) :
    Meets BlockHeap.empty (hostrpc_pfBuildValist malloc mem n c) (AtBuild malloc) := by
  unfold hostrpc_pfBuildValist
  by_cases hmalloc : malloc sizeofRegSaveArea
  · rw [if_pos hmalloc]
    have hregs : Function.update BlockHeap.empty Block.regs (some sizeofRegSaveArea) =
        holding Valist.empty := by
      funext b
      cases b with
      | regs => rfl
      | overflow size => exact (if_neg fun h => h.2 h.1).symm
    apply meets_step (step_malloc rfl sizeofRegSaveArea)
    rw [hregs]
    apply meets_step (step_store (holding_regs _) (zero_add sizeofRegSaveArea).le)
    apply (meets_argLoop Valist.sound_empty n c).imp
    intro r h hlist
    cases r with
    | ok w => exact hlist
    | error e => exact (if_pos hmalloc).mpr hlist
  · rw [if_neg hmalloc]
    exact meets_fail ((if_neg hmalloc).mpr rfl)

/-- Behind the call nothing is left, and without it what the list has. -/
def AtEnd {α : Type*} (malloc : ℕ → Bool) : Except Failure α → BlockHeap Block → Prop
  | .ok _, h => h = BlockHeap.empty
  | .error _, h => if malloc sizeofRegSaveArea then ∃ u, h = holding u else h = BlockHeap.empty

theorem meets_finish {call : Valist → PrintCall} {build : Traced Block Failure Valist}
    (hbuild : Meets BlockHeap.empty build (AtBuild malloc)) :
    Meets BlockHeap.empty (finish call build) (AtEnd malloc) := by
  unfold finish
  apply Meets.bind (R := AtBuild malloc)
  · apply hbuild.mapError
    intro r h hr
    cases r <;> exact hr
  · rintro w _ rfl
    have hfree : ∀ size, Function.update (holding w) .regs none (.overflow size) =
        holding w (.overflow size) := fun size => Function.update_of_ne (by simp) _ _
    apply meets_step (step_free (holding_regs w))
    by_cases hzero : w.overflow_size = 0
    · rw [if_pos hzero]
      refine meets_ok (funext fun b => ?_)
      cases b with
      | regs => exact Function.update_self ..
      | overflow size => exact (hfree size).trans (if_neg fun h => h.2 (h.1.trans hzero))
    · rw [if_neg hzero]
      have harea := (hfree w.overflow_size).trans (holding_overflow hzero)
      apply meets_step (step_free harea)
      refine meets_ok (funext fun b => ?_)
      cases b with
      | regs => rfl
      | overflow size =>
        by_cases hsize : size = w.overflow_size
        · subst hsize
          exact Function.update_self ..
        · rw [Function.update_of_ne (by simpa using hsize), hfree]
          exact holding_other hsize
  · exact fun e h herror => herror

/-- Once the register save area is there, a failure leaves it behind. -/
theorem AtEnd.released_iff {α : Type*} {x : Traced Block Failure α}
    (hx : Meets BlockHeap.empty x (AtEnd malloc)) :
    x.Releases ↔ (∃ a, x.result = .ok a) ∨ malloc sizeofRegSaveArea = false := by
  obtain ⟨h, hrun, hend⟩ := hx
  unfold Traced.Releases
  rw [hrun, Option.some_inj]
  cases hresult : x.result with
  | ok a =>
    rw [hresult] at hend
    exact iff_of_true hend (.inl ⟨a, rfl⟩)
  | error e =>
    rw [hresult] at hend
    unfold AtEnd at hend
    dsimp only at hend
    by_cases hmalloc : malloc sizeofRegSaveArea
    · rw [if_pos hmalloc] at hend
      obtain ⟨u, rfl⟩ := hend
      refine iff_of_false (fun hempty => ?_) (by simp [hmalloc])
      cases congrFun hempty Block.regs
    · rw [if_neg hmalloc] at hend
      exact iff_of_true hend (.inr (by simpa using hmalloc))

end Heap

end Aomp.Arguments
