import Aomp.Foundations.FilledArray
import Aomp.Hostexec.Matching
import Aomp.Sanitizer.UriLocator

/-!
# Sanitizer reports

`handler_SERVICE_SANITIZER` gathers what the active lanes of a wave report about an invalid
access: the failing addresses, the entities that were running, and the position of the code.
-/
namespace Aomp.Sanitizer

open Foundations Hostexec

/-- The arrays and variables of the loop. -/
structure Gathered where
  device_failing_addresses : Vector (Option Word) 64
  /-- index 0 contains the device id, 1, 2, 3 the work group, 4 to 67 the waves -/
  entity_id : Vector (Option Word) 68
  callstack : Vector (Option Word) 1
  access_info : Word
  access_size : Word
  indx : ℕ
  en_idx : ℕ
  first_workitem : Bool

def gatherFirst (data_slot : Slot) (g : Gathered) : Option Gathered := do
  let addresses ← storeAt g.device_failing_addresses g.indx (data_slot 0)
  let callstack ← storeAt g.callstack 0 (data_slot 1)
  let entity_id ← storeAt g.entity_id g.en_idx (data_slot 2)
  let entity_id ← storeAt entity_id (g.en_idx + 1) (data_slot 3)
  let entity_id ← storeAt entity_id (g.en_idx + 2) (data_slot 4)
  let entity_id ← storeAt entity_id (g.en_idx + 3) (data_slot 5)
  return ⟨addresses, entity_id, callstack, data_slot 6, data_slot 7, g.indx, g.en_idx + 3, true⟩

def gatherOther (data_slot : Slot) (g : Gathered) : Option Gathered := do
  let addresses ← storeAt g.device_failing_addresses g.indx (data_slot 0)
  let entity_id ← storeAt g.entity_id g.en_idx (data_slot 5)
  return { g with device_failing_addresses := addresses, entity_id := entity_id }

/-- One iteration, `none` where a store is outside of its array. -/
def gatherLane (payload : Payload) (activemask : Word) (g : Gathered) (wi : Fin 64) :
    Option Gathered :=
  if laneActive activemask wi then do
    let data_slot := payload wi
    let g ← if !g.first_workitem then gatherFirst data_slot g else gatherOther data_slot g
    return { g with indx := g.indx + 1, en_idx := g.en_idx + 1 }
  else some g

def gather (payload : Payload) (activemask : Word) (gpu_device : BitVec 32) : Option Gathered := do
  let entity_id ← storeAt (.replicate 68 none) 0 (gpu_device.setWidth 64)
  (List.finRange 64).foldlM (gatherLane payload activemask)
    ⟨.replicate 64 none, entity_id, .replicate 1 none, 0, 0, 0, 1, false⟩

/-- The arguments of `__asan_report_nonself_error`. -/
structure AsanReport where
  callstack : Vector (Option Word) 1
  n_callstack : ℕ
  addr : Vector (Option Word) 64
  naddr : ℕ
  entity_ids : Vector (Option Word) 68
  n_entities : ℕ
  is_write : Bool
  access_size : BitVec 32
  is_abort : Bool
  vma_adjust : Word
  file_extent_size : ℕ
  file_extent_start : ℕ

/-- `UriLocator::UriInfo` -/
structure UriInfo where
  uriPath : List Byte
  loadAddressDiff : Word

/-- `__builtin_popcountl` -/
def popcount (activemask : Word) : ℕ := activemask.cpop.toNat

/-- `handler_SERVICE_SANITIZER` with what `lookUpUri` of the locator finds for the code, if there
is a locator; `none` where a store is outside of its array or the locator cannot be decoded. -/
def handler_SERVICE_SANITIZER (lookUpUri : Option (Option Word → UriInfo))
    (fd_size : List Byte → ℕ) (payload : Payload) (activemask : Word) (gpu_device : BitVec 32) :
    Option AsanReport := do
  let n_activelanes := popcount activemask
  let g ← gather payload activemask gpu_device
  let is_abort := g.access_info &&& 0xFFFFFFFF00000000#64 == 0
  let is_write := g.access_info &&& 1 != 0
  let (offset, size, loadAddrAdjust) ← match lookUpUri with
    | none => some (0, 0, (0 : Word))
    | some lookUpUri =>
      let fileuri_info := lookUpUri g.callstack[0]
      match decodeUriAndGetFd fd_size fileuri_info.uriPath with
      | .ok (_, offset, size) => some (offset, size, fileuri_info.loadAddressDiff)
      | .error _ => none
  return ⟨g.callstack, 1, g.device_failing_addresses, n_activelanes, g.entity_id, n_activelanes + 4,
    is_write, g.access_size.setWidth 32, is_abort, loadAddrAdjust, size, offset⟩

variable {payload : Payload} {activemask : Word} {gpu_device : BitVec 32} {g : Gathered}
  {lanes : List (Fin 64)} {wi : Fin 64}

theorem cpopNatRec_eq_countP (w : Word) (n : ℕ) :
    w.cpopNatRec n 0 = (List.range n).countP fun i => w.getLsbD i := by
  induction n with
  | zero => rfl
  | succ n ih =>
    rw [BitVec.cpopNatRec_succ, BitVec.cpopNatRec_eq, ih, List.range_succ, List.countP_append,
      List.countP_singleton, Nat.zero_add]
    cases w.getLsbD n <;> rfl

theorem length_activeLanes (activemask : Word) :
    (activeLanes activemask).length = popcount activemask := by
  rw [popcount, BitVec.toNat_cpop, cpopNatRec_eq_countP, activeLanes, ← List.countP_eq_length_filter,
    ← List.map_coe_finRange_eq_range, List.countP_map]
  apply List.countP_congr
  intro wi _
  rw [laneActive_eq_getLsbD _ _ wi.isLt]
  rfl

def entities (payload : Payload) (gpu_device : BitVec 32) (lanes : List (Fin 64)) : List Word :=
  gpu_device.setWidth 64 ::
    ((lanes.head?.map fun wi => [payload wi 2, payload wi 3, payload wi 4]).getD [] ++
      lanes.map fun wi => payload wi 5)

/-- The arrays hold what the lanes have reported. -/
structure Gathered.Holds (g : Gathered) (payload : Payload) (gpu_device : BitVec 32)
    (lanes : List (Fin 64)) : Prop where
  addresses : FilledWith g.device_failing_addresses (lanes.map fun wi => payload wi 0)
  entity_id : FilledWith g.entity_id (entities payload gpu_device lanes)
  callstack : FilledWith g.callstack (lanes.head?.map fun wi => payload wi 1).toList
  indx : g.indx = lanes.length
  en_idx : g.en_idx = (entities payload gpu_device lanes).length
  first : g.first_workitem = !lanes.isEmpty

theorem length_entities_le (payload : Payload) (gpu_device : BitVec 32) (lanes : List (Fin 64)) :
    (entities payload gpu_device lanes).length ≤ lanes.length + 4 := by
  cases lanes <;> simp [entities]

theorem entities_append (payload : Payload) (gpu_device : BitVec 32) (hne : lanes ≠ []) (wi : Fin 64) :
    entities payload gpu_device (lanes ++ [wi]) =
      entities payload gpu_device lanes ++ [payload wi 5] := by
  obtain ⟨first, rest, rfl⟩ := List.exists_cons_of_ne_nil hne
  simp [entities]

theorem Gathered.Holds.first_lane (h : g.Holds payload gpu_device [])
    (hactive : laneActive activemask wi) :
    ∃ g', gatherLane payload activemask g wi = some g' ∧ g'.Holds payload gpu_device [wi] := by
  have hfirst : g.first_workitem = false := h.first
  have hindx : g.indx = 0 := h.indx
  have hen_idx : g.en_idx = 1 := h.en_idx
  obtain ⟨addresses, hstore, haddresses⟩ := h.addresses.store (by simp) (payload wi 0)
  obtain ⟨callstack, hcall, hcallstack⟩ := h.callstack.store (by simp) (payload wi 1)
  obtain ⟨e1, hx, h1⟩ := h.entity_id.store (by simp [entities]) (payload wi 2)
  obtain ⟨e2, hy, h2⟩ := h1.store (by simp [entities]) (payload wi 3)
  obtain ⟨e3, hz, h3⟩ := h2.store (by simp [entities]) (payload wi 4)
  obtain ⟨e4, hwave, h4⟩ := h3.store (by simp [entities]) (payload wi 5)
  have hgather : gatherFirst (payload wi) g =
      some ⟨addresses, e4, callstack, payload wi 6, payload wi 7, 0, 4, true⟩ := by
    change storeAt g.device_failing_addresses 0 (payload wi 0) = some addresses at hstore
    change storeAt g.callstack 0 (payload wi 1) = some callstack at hcall
    change storeAt g.entity_id 1 (payload wi 2) = some e1 at hx
    change storeAt e1 2 (payload wi 3) = some e2 at hy
    change storeAt e2 3 (payload wi 4) = some e3 at hz
    change storeAt e3 4 (payload wi 5) = some e4 at hwave
    simp [gatherFirst, hindx, hen_idx, hstore, hcall, hx, hy, hz, hwave]
  refine ⟨⟨addresses, e4, callstack, payload wi 6, payload wi 7, 1, 5, true⟩, ?_, ?_⟩
  · rw [gatherLane, if_pos hactive, hfirst]
    change (gatherFirst (payload wi) g >>= _) = _
    rw [hgather]
    rfl
  · exact ⟨haddresses, h4, hcallstack, rfl, rfl, rfl⟩

/-- Another active lane adds its address and its wave. -/
theorem Gathered.Holds.other_lane (h : g.Holds payload gpu_device lanes) (hne : lanes ≠ [])
    (hspace : lanes.length < 64) (hactive : laneActive activemask wi) :
    ∃ g', gatherLane payload activemask g wi = some g' ∧
      g'.Holds payload gpu_device (lanes ++ [wi]) := by
  have hfirst : g.first_workitem = true := by
    rw [h.first]
    simpa using hne
  obtain ⟨addresses, hstore, haddresses⟩ := h.addresses.store (by simpa using hspace) (payload wi 0)
  have hentities := length_entities_le payload gpu_device lanes
  obtain ⟨entity_id, hwave, hentity_id⟩ := h.entity_id.store (by omega) (payload wi 5)
  rw [List.length_map, ← h.indx] at hstore
  rw [← h.en_idx] at hwave
  have hgather : gatherOther (payload wi) g =
      some { g with device_failing_addresses := addresses, entity_id := entity_id } := by
    rw [gatherOther, hstore]
    change (storeAt g.entity_id g.en_idx _ >>= _) = _
    rw [hwave]
    rfl
  refine ⟨{ g with
    device_failing_addresses := addresses
    entity_id := entity_id
    indx := g.indx + 1
    en_idx := g.en_idx + 1 }, ?_, ?_⟩
  · have hnot : (!g.first_workitem) = false := by rw [hfirst]; rfl
    rw [gatherLane, if_pos hactive, hnot]
    change (gatherOther (payload wi) g >>= _) = _
    rw [hgather]
    rfl
  · have hentry := entities_append payload gpu_device hne wi
    refine ⟨?_, ?_, ?_, ?_, ?_, ?_⟩
    · rw [List.map_append]
      exact haddresses
    · rw [hentry]
      exact hentity_id
    · rw [List.head?_append_of_ne_nil _ hne]
      exact h.callstack
    · rw [List.length_append, ← h.indx]
      rfl
    · rw [hentry, List.length_append, ← h.en_idx]
      rfl
    · simp [hfirst]

theorem Gathered.Holds.gatherLane (h : g.Holds payload gpu_device lanes) (hspace : lanes.length < 64)
    (activemask : Word) (wi : Fin 64) : ∃ g', gatherLane payload activemask g wi = some g' ∧
      g'.Holds payload gpu_device (lanes ++ [wi].filter fun l : Fin 64 => laneActive activemask l) := by
  by_cases hactive : laneActive activemask wi
  · rw [List.filter_cons_of_pos (by simpa using hactive), List.filter_nil]
    by_cases hnil : lanes = []
    · subst hnil
      exact h.first_lane hactive
    · exact h.other_lane hnil hspace hactive
  · rw [List.filter_cons_of_neg (by simpa using hactive), List.filter_nil, List.append_nil]
    exact ⟨g, if_neg hactive, h⟩

theorem Gathered.Holds.foldlM (h : g.Holds payload gpu_device lanes) (activemask : Word)
    (rest : List (Fin 64)) (hspace : lanes.length + rest.length ≤ 64) :
    ∃ g', rest.foldlM (Sanitizer.gatherLane payload activemask) g = some g' ∧
      g'.Holds payload gpu_device (lanes ++ rest.filter fun l : Fin 64 => laneActive activemask l) := by
  induction rest generalizing g lanes with
  | nil => exact ⟨g, rfl, by simpa using h⟩
  | cons wi rest ih =>
    rw [List.length_cons] at hspace
    obtain ⟨g', hstep, hholds⟩ := h.gatherLane (by omega) activemask wi
    have hlength := List.length_filter_le (fun l : Fin 64 => laneActive activemask l) [wi]
    rw [List.length_singleton] at hlength
    obtain ⟨g'', hrun, hholds'⟩ := ih hholds (by rw [List.length_append]; omega)
    refine ⟨g'', ?_, ?_⟩
    · rw [List.foldlM_cons, hstep]
      exact hrun
    · rw [List.append_assoc, ← List.filter_append] at hholds'
      exact hholds'

theorem exists_gather (payload : Payload) (activemask : Word) (gpu_device : BitVec 32) :
    ∃ g, gather payload activemask gpu_device = some g ∧
      g.Holds payload gpu_device (activeLanes activemask) := by
  obtain ⟨entity_id, hstore, hentity_id⟩ :=
    (@filledWith_replicate Word 68).store (by decide) (gpu_device.setWidth 64)
  have hstart : Gathered.Holds ⟨.replicate 64 none, entity_id, .replicate 1 none, 0, 0, 0, 1, false⟩
      payload gpu_device [] :=
    ⟨filledWith_replicate, hentity_id, filledWith_replicate, rfl, rfl, rfl⟩
  obtain ⟨g, hrun, hholds⟩ := hstart.foldlM activemask (List.finRange 64) (by simp)
  refine ⟨g, ?_, hholds⟩
  rw [gather, show storeAt _ 0 (gpu_device.setWidth 64) = some entity_id from hstore]
  exact hrun

theorem Gathered.Holds.written_addresses (h : g.Holds payload gpu_device lanes) :
    written g.device_failing_addresses = lanes.length := by
  rw [h.addresses.written_eq, List.length_map]

theorem Gathered.Holds.written_entities (h : g.Holds payload gpu_device lanes) (hne : lanes ≠ []) :
    written g.entity_id = lanes.length + 4 := by
  obtain ⟨first, rest, rfl⟩ := List.exists_cons_of_ne_nil hne
  rw [h.entity_id.written_eq]
  simp [entities]

/-- The arrays of a report hold the words of the active lanes in order, and nothing else. -/
theorem report_gathering (payload : Payload) (activemask : Word) (gpu_device : BitVec 32)
    (hactive : activemask ≠ 0) : ∃ g first rest, gather payload activemask gpu_device = some g ∧
      activeLanes activemask = first :: rest ∧
      FilledWith g.device_failing_addresses ((activeLanes activemask).map fun wi => payload wi 0) ∧
      FilledWith g.entity_id (gpu_device.setWidth 64 :: payload first 2 :: payload first 3 ::
        payload first 4 :: (activeLanes activemask).map fun wi => payload wi 5) ∧
      FilledWith g.callstack [payload first 1] ∧
      written g.device_failing_addresses = popcount activemask ∧
      written g.entity_id = popcount activemask + 4 := by
  obtain ⟨g, hgather, hholds⟩ := exists_gather payload activemask gpu_device
  obtain ⟨first, rest, hlanes⟩ := List.exists_cons_of_ne_nil (activeLanes_ne_nil hactive)
  have hlength := length_activeLanes activemask
  refine ⟨g, first, rest, hgather, hlanes, hholds.addresses, ?_, ?_, ?_, ?_⟩
  · have hentities := hholds.entity_id
    rw [hlanes] at hentities ⊢
    exact hentities
  · have hcallstack := hholds.callstack
    rw [hlanes] at hcallstack
    exact hcallstack
  · rw [hholds.written_addresses, hlength]
  · rw [hholds.written_entities (activeLanes_ne_nil hactive), hlength]

/-- The lanes 0 and 63. -/
theorem report_gathering_two : ∃ g first rest,
    gather (fun wi k => BitVec.ofNat 64 (wi + k)) 0x8000000000000001 7 = some g ∧
      activeLanes 0x8000000000000001 = first :: rest ∧
      FilledWith g.device_failing_addresses
        ((activeLanes 0x8000000000000001).map fun wi => BitVec.ofNat 64 (wi + 0)) ∧
      FilledWith g.entity_id ((7 : BitVec 32).setWidth 64 :: BitVec.ofNat 64 (first + 2) ::
        BitVec.ofNat 64 (first + 3) :: BitVec.ofNat 64 (first + 4) ::
        (activeLanes 0x8000000000000001).map fun wi => BitVec.ofNat 64 (wi + 5)) ∧
      FilledWith g.callstack [BitVec.ofNat 64 (first + 1)] ∧
      written g.device_failing_addresses = popcount 0x8000000000000001 ∧
      written g.entity_id = popcount 0x8000000000000001 + 4 :=
  report_gathering (fun wi k => BitVec.ofNat 64 (wi + k)) 0x8000000000000001 7 (by decide)

/-- The arguments of `__ockl_sanitizer_report`. -/
structure LaneReport where
  addr : Word
  pc : Word
  wgidx : Word
  wgidy : Word
  wgidz : Word
  wave_id : Word
  is_read : Word
  access_size : Word

/-- What `__ockl_sanitizer_report` passes to `hostexec_invoke`. -/
def LaneReport.slot (r : LaneReport) : Slot := fun k =>
  [r.addr, r.pc, r.wgidx, r.wgidy, r.wgidz, r.wave_id, r.is_read, r.access_size].getD k 0

theorem sanitizer_call_gathered {cfg : Config} {exec : Service} {raw : Buffer} {s : State cfg}
    (h : ReachesServing exec raw s) {c : Completed} (hc : c ∈ s.completed) (hreq : c.req.Sanitizes)
    (reports : Fin 64 → LaneReport) (hargs : ∀ wi, c.req.args wi = (reports wi).slot) :
    ∃ r g, s.reportsOf c.call = [r] ∧ gather r.payload r.activemask r.device_id = some g ∧
      FilledWith g.device_failing_addresses
        ((activeLanes c.req.activemask).map fun wi => (reports wi).addr) ∧
      written g.entity_id = popcount c.req.activemask + 4 := by
  obtain ⟨-, ⟨r, hreport, hof⟩, -⟩ := (h.matched.answered c hc).sanitized hreq
  obtain ⟨g, hgather, hholds⟩ := exists_gather r.payload r.activemask r.device_id
  have hne := activeLanes_ne_nil c.req.active
  have haddr : ∀ wi ∈ activeLanes r.activemask, r.payload wi 0 = (reports wi).addr := by
    intro wi hwi
    rw [hof.activemask] at hwi
    rw [hof.payload wi (List.mem_filter.mp hwi).2, hargs]
    rfl
  have haddresses := hholds.addresses
  rw [List.map_congr_left haddr, hof.activemask] at haddresses
  refine ⟨r, g, hreport, hgather, haddresses, ?_⟩
  rw [hof.activemask] at hholds
  rw [hholds.written_entities hne, length_activeLanes]

theorem handler_counts {lookUpUri : Option (Option Word → UriInfo)} {fd_size : List Byte → ℕ}
    {r : AsanReport} (hactive : activemask ≠ 0)
    (h : handler_SERVICE_SANITIZER lookUpUri fd_size payload activemask gpu_device = some r) :
    r.naddr = written r.addr ∧ r.n_entities = written r.entity_ids := by
  obtain ⟨g, hgather, hholds⟩ := exists_gather payload activemask gpu_device
  have haddresses := hholds.written_addresses
  have hentities := hholds.written_entities (activeLanes_ne_nil hactive)
  rw [length_activeLanes] at haddresses hentities
  rw [handler_SERVICE_SANITIZER, hgather] at h
  cases lookUpUri with
  | none =>
    obtain rfl := Option.some.inj h
    exact ⟨haddresses.symm, hentities.symm⟩
  | some lookUpUri =>
    cases hdecode : decodeUriAndGetFd fd_size (lookUpUri g.callstack[0]).uriPath with
    | error e => simp [hdecode] at h
    | ok uri =>
      simp only [Option.bind_eq_bind, Option.bind_some, hdecode] at h
      obtain rfl := Option.some.inj h
      exact ⟨haddresses.symm, hentities.symm⟩

end Aomp.Sanitizer
