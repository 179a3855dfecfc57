import Aomp.Foundations.Bytes
import Aomp.Foundations.CLayout
import Aomp.Hostexec.Buffer

/-!
# The memory of a buffer

`create_buffer_t` puts the `buffer_t`, the headers and the payloads into one allocation and
links all packets to the free stack.
-/
namespace Aomp.Hostexec

open Foundations

/-- `header_t`: `next`, `activemask`, `service`, `control` -/
def headerMembers : List CType := [.uint64_t, .uint64_t, .uint32_t, .uint32_t]

def headerT : CType := .struct headerMembers

/-- `payload_t`: `uint64_t slots[64][8]` -/
def payloadT : CType := (CType.uint64_t.array 8).array 64

/-- `buffer_t`: `headers`, `payloads`, `doorbell`, `free_stack`, `ready_stack`, `index_size`,
`device_id` -/
def bufferMembers : List CType :=
  [.uint64_t, .uint64_t, .struct [.uint64_t], .uint64_t, .uint64_t, .uint32_t, .uint32_t]

def bufferT : CType := .struct bufferMembers

namespace BufferT

def headers : ℕ := CType.offsetOf bufferMembers 0
def payloads : ℕ := CType.offsetOf bufferMembers 1
def free_stack : ℕ := CType.offsetOf bufferMembers 3
def ready_stack : ℕ := CType.offsetOf bufferMembers 4
def index_size : ℕ := CType.offsetOf bufferMembers 5
def device_id : ℕ := CType.offsetOf bufferMembers 6

@[simp] theorem headers_eq : headers = 0 := rfl
@[simp] theorem payloads_eq : payloads = 8 := rfl
@[simp] theorem free_stack_eq : free_stack = 24 := rfl
@[simp] theorem ready_stack_eq : ready_stack = 32 := rfl
@[simp] theorem index_size_eq : index_size = 40 := rfl
@[simp] theorem device_id_eq : device_id = 44 := rfl

end BufferT

@[simp] theorem headerT_size : headerT.size = 24 := rfl
@[simp] theorem headerT_align : headerT.align = 8 := rfl
@[simp] theorem payloadT_size : payloadT.size = 4096 := rfl
@[simp] theorem payloadT_align : payloadT.align = 8 := rfl
@[simp] theorem bufferT_size : bufferT.size = 48 := rfl
@[simp] theorem bufferT_align : bufferT.align = 8 := rfl

/-- `align_to` -/
def alignTo (value alignment : ℕ) : ℕ :=
  if value % alignment = 0 then value else (value - value % alignment + alignment) % 2 ^ 64

/-- `get_buffer_alignment` -/
def getBufferAlignment : ℕ := payloadT.align

/-- `get_header_start` -/
def getHeaderStart : ℕ := alignTo bufferT.size headerT.align

/-- `get_payload_start` -/
def getPayloadStart (num_packets : ℕ) : ℕ :=
  let header_start := getHeaderStart
  let header_end := (header_start + headerT.size * num_packets) % 2 ^ 64
  alignTo header_end payloadT.align

/-- `get_buffer_size` -/
def getBufferSize (num_packets : ℕ) : ℕ :=
  let buffer_size := getPayloadStart num_packets
  (buffer_size + num_packets * payloadT.size) % 2 ^ 64

section

variable {value alignment n : ℕ}

theorem alignTo_eq_roundUp (h : 0 < alignment) (hspace : value + alignment ≤ 2 ^ 64) :
    alignTo value alignment = roundUp value alignment := by
  have hmod : value - value % alignment = alignment * (value / alignment) :=
    (Nat.mul_div_self_eq_mod_sub_self ..).symm
  have hlt := Nat.mod_lt value h
  have hle := Nat.mod_le value alignment
  unfold alignTo
  split_ifs with hzero
  · exact (roundUp_eq_of_dvd (Nat.dvd_of_mod_eq_zero hzero) le_rfl (by omega)).symm
  · rw [Nat.mod_eq_of_lt (by omega)]
    symm
    apply roundUp_eq_of_dvd
    · rw [hmod, ← Nat.mul_add_one]
      exact Nat.dvd_mul_right _ _
    · omega
    · omega

@[simp] theorem getHeaderStart_eq : getHeaderStart = 48 := rfl

theorem getPayloadStart_eq (hn : n < 2 ^ 32) : getPayloadStart n = 48 + 24 * n := by
  have hend : (getHeaderStart + headerT.size * n) % 2 ^ 64 = 48 + 24 * n := by
    rw [getHeaderStart_eq, headerT_size]
    exact Nat.mod_eq_of_lt (by omega)
  unfold getPayloadStart
  dsimp only
  rw [hend, alignTo_eq_roundUp payloadT.align_pos (by rw [payloadT_align]; omega)]
  exact roundUp_eq_of_dvd (by rw [payloadT_align]; omega) le_rfl (by rw [payloadT_align]; omega)

theorem getBufferSize_eq (hn : n < 2 ^ 32) : getBufferSize n = 48 + 24 * n + n * 4096 := by
  unfold getBufferSize
  dsimp only
  rw [getPayloadStart_eq hn, payloadT_size]
  exact Nat.mod_eq_of_lt (by omega)

end

/-- The address of `hb->headers[ii]`, from the start of the buffer on. -/
def headerOffset (ii : ℕ) : ℕ := getHeaderStart + ii * headerT.size

/-- `hb->headers[ii].next = next` -/
def nextStore (ii : ℕ) (next : Word) : Store := ⟨headerOffset ii, leBytes 8 next.toNat⟩

/-- The stores of the link loop after `k` rounds, and `next`. -/
def linkStores (index_size : ℕ) : ℕ → List Store × Word
  | 0 => ([nextStore 0 0#64], 1#64 <<< index_size)
  | k + 1 =>
    let (stores, next) := linkStores index_size k
    (stores ++ [nextStore (k + 1) next], BitVec.ofNat 64 (k + 1))

/-- The stores of `create_buffer_t` to the memory at `hb`. -/
def initStores (hb num_packets : ℕ) (devid : BitVec 32) : List Store :=
  let index_size := indexSize num_packets
  let links := linkStores index_size (num_packets - 1)
  [⟨BufferT.headers, leBytes 8 (hb + getHeaderStart)⟩,
    ⟨BufferT.payloads, leBytes 8 (hb + getPayloadStart num_packets)⟩,
    ⟨BufferT.index_size, leBytes 4 index_size⟩] ++ links.1 ++
  [⟨BufferT.free_stack, leBytes 8 links.2.toNat⟩, ⟨BufferT.ready_stack, leBytes 8 0⟩,
    ⟨BufferT.device_id, leBytes 4 devid.toNat⟩]

/-- The calls of `thread_abort` in `create_buffer_t`. -/
inductive CreateAbort
  | RC_SUCCESS
  | RC_ERROR_HSAFAIL
  | RC_ERROR_ZEROPACKETS
  | RC_ERROR_ALIGNMENT
  deriving DecidableEq

/-- The memory, and the address of the new buffer. -/
structure Created where
  mem : ℕ → Byte
  hb : ℕ

/-- The memory of a buffer at `hb`. -/
def Created.at (mem : ℕ → Byte) (hb num_packets : ℕ) (devid : BitVec 32) : Created :=
  ⟨Store.writeAll hb mem (initStores hb num_packets devid), hb⟩

/-- `create_buffer_t` on memory. `host_malloc` returns an address with `_RC_SUCCESS`, or aborts. -/
def createBuffer (host_malloc : ℕ → Option ℕ) (mem : ℕ → Byte) (num_packets : ℕ)
    (devid : BitVec 32) : Except CreateAbort Created :=
  if num_packets = 0 then .error .RC_ERROR_ZEROPACKETS
  else
    let size := getBufferSize num_packets
    let align := getBufferAlignment
    match host_malloc ((size + align) % 2 ^ 64) with
    | none => .error .RC_ERROR_HSAFAIL
    | some newbuffer =>
      if newbuffer = 0 then .error .RC_SUCCESS
      else if newbuffer % getBufferAlignment ≠ 0 then .error .RC_ERROR_ALIGNMENT
      else .ok (Created.at mem newbuffer num_packets devid)

namespace Created

variable (c : Created)

def headers : ℕ := readLE c.mem (c.hb + BufferT.headers) 8
def payloads : ℕ := readLE c.mem (c.hb + BufferT.payloads) 8
def freeStack : Word := BitVec.ofNat 64 (readLE c.mem (c.hb + BufferT.free_stack) 8)
def readyStack : Word := BitVec.ofNat 64 (readLE c.mem (c.hb + BufferT.ready_stack) 8)
def indexSize : ℕ := readLE c.mem (c.hb + BufferT.index_size) 4
def deviceId : BitVec 32 := BitVec.ofNat 32 (readLE c.mem (c.hb + BufferT.device_id) 4)

/-- `hb->headers[i]` -/
def header (i : ℕ) : CObject := .element headerT c.headers i

/-- `hb->payloads[i]` -/
def payload (i : ℕ) : CObject := .element payloadT c.payloads i

/-- `hb->headers[i].next` -/
def next (i : ℕ) : Word :=
  BitVec.ofNat 64 (readLE c.mem ((c.header i).start + CType.offsetOf headerMembers 0) 8)

def initialPtrs (num_packets : ℕ) : List Word :=
  c.freeStack :: (List.range' 1 (num_packets - 1)).map c.next

end Created

/-- The memory holds the stacks, the links and the numbers of a buffer. -/
structure Created.Shows (c : Created) (num_packets : ℕ) (b : Buffer) : Prop where
  free_stack : c.freeStack = b.free_stack
  ready_stack : c.readyStack = b.ready_stack
  index_size : c.indexSize = b.index_size
  device_id : c.deviceId = b.device_id
  next : ∀ i < num_packets, c.next i = (b.headers i).next

def Buffer.blank : Buffer := ⟨fun _ => ⟨0, 0, 0, 0⟩, fun _ _ _ => 0, 0, 0, 0, 0, 0⟩

/-- The objects of a buffer. -/
inductive Part (num_packets : ℕ)
  | buffer
  | header (i : Fin num_packets)
  | payload (i : Fin num_packets)

def Part.object {num_packets : ℕ} (c : Created) : Part num_packets → CObject
  | buffer => ⟨bufferT, c.hb⟩
  | header i => c.header i
  | payload i => c.payload i

/-- What `create_buffer_t` leaves behind. -/
structure Created.Built (c : Created) (num_packets : ℕ) : Prop where
  disjoint : Pairwise fun p q : Part num_packets => Disjoint (p.object c).bytes (q.object c).bytes
  aligned : ∀ p : Part num_packets, (p.object c).Aligned
  inside : ∀ p : Part num_packets,
    (p.object c).bytes ⊆ Set.Ico c.hb (c.hb + getBufferSize num_packets)
  nodup : (c.initialPtrs num_packets).Nodup
  index_lt : ∀ ptr ∈ c.initialPtrs num_packets, getPtrIndex ptr c.indexSize < num_packets
  index_inj : Set.InjOn (fun ptr => getPtrIndex ptr c.indexSize)
    {ptr | ptr ∈ c.initialPtrs num_packets}
  visits : ∃ xs, xs.Perm (List.range num_packets) ∧
    Visits 0#64 (fun ptr => getPtrIndex ptr c.indexSize) c.next c.freeStack xs

section

variable {n hb : ℕ} {mem : ℕ → Byte} {devid : BitVec 32} {c : Created}

/-- The stores of the loop write the links that the loop computes. -/
theorem linkStores_eq (is : ℕ) (headers : ℕ → Header) (k : ℕ) : linkStores is k =
    ((List.range (k + 1)).map fun i => nextStore i ((linkLoop is headers k).1 i).next,
      (linkLoop is headers k).2) := by
  induction k with
  | zero => simp [linkStores, linkLoop]
  | succ k ih =>
    have hkept : ∀ i ∈ List.range (k + 1),
        ((linkLoop is headers (k + 1)).1 i).next = ((linkLoop is headers k).1 i).next := by
      intro i hi
      have hne : i ≠ k + 1 := (List.mem_range.mp hi).ne
      simp [linkLoop, Function.update_of_ne hne]
    rw [linkStores, ih, @List.range_succ (k + 1), List.map_append,
      List.map_congr_left fun i hi => congrArg (nextStore i) (hkept i hi)]
    simp [linkLoop]

theorem nextStore_finish (i : ℕ) (next : Word) : (nextStore i next).finish = 48 + i * 24 + 8 := by
  simp [nextStore, Store.finish, headerOffset]

theorem links_between (next : ℕ → Word) (k : ℕ) :
    Store.Between 48 ((List.range k).map fun i => nextStore i (next i)) (48 + k * 24) := by
  induction k with
  | zero => exact le_rfl
  | succ k ih =>
    rw [List.range_succ, List.map_append]
    apply ih.append
    refine ⟨le_of_eq ?_, ?_⟩
    · simp [nextStore, headerOffset]
    · rw [nextStore_finish]
      change _ ≤ _
      omega

/-- No two stores of `create_buffer_t` overlap. -/
theorem initStores_apart (hb n : ℕ) (devid : BitVec 32) :
    (initStores hb n devid).Pairwise Store.Apart := by
  obtain ⟨next, hlinks⟩ : ∃ next : ℕ → Word, (linkStores (indexSize n) (n - 1)).1 =
      (List.range (n - 1 + 1)).map fun i => nextStore i (next i) :=
    ⟨_, congrArg Prod.fst (linkStores_eq _ (fun _ => ⟨0, 0, 0, 0⟩) _)⟩
  have hbetween := links_between next (n - 1 + 1)
  have hfields : ∀ s : Store, s.finish ≤ 48 → ∀ t ∈ (linkStores (indexSize n) (n - 1)).1,
      s.Apart t := by
    intro s hs t ht
    rw [hlinks] at ht
    exact .inl (hs.trans (hbetween.bounds t ht).1)
  unfold initStores
  dsimp only
  refine List.pairwise_append.mpr ⟨List.pairwise_append.mpr ⟨?_, ?_, ?_⟩, ?_, ?_⟩
  · simp [Store.Apart, Store.finish]
  · rw [hlinks]
    exact hbetween.pairwise.imp .inl
  · intro s hs
    apply hfields
    revert s
    simp [Store.finish]
  · simp [Store.Apart, Store.finish]
  · intro s hs t ht
    rcases List.mem_append.mp hs with hs | hs
    · simp only [List.mem_cons, List.not_mem_nil, or_false] at hs ht
      rcases hs with rfl | rfl | rfl <;> rcases ht with rfl | rfl | rfl <;>
        simp [Store.Apart, Store.finish]
    · have ht48 : t.finish ≤ 48 := by
        revert t
        simp [Store.finish]
      exact (hfields t ht48 s hs).symm

theorem createBuffer_eq_ok {host_malloc : ℕ → Option ℕ} (hn : n ≠ 0)
    (hmalloc : host_malloc ((getBufferSize n + getBufferAlignment) % 2 ^ 64) = some hb)
    (hnull : hb ≠ 0) (haligned : getBufferAlignment ∣ hb) :
    createBuffer host_malloc mem n devid = .ok (Created.at mem hb n devid) := by
  unfold createBuffer
  rw [if_neg hn]
  dsimp only
  rw [hmalloc]
  dsimp only
  rw [if_neg hnull, if_neg (not_not_intro (Nat.mod_eq_zero_of_dvd haligned))]

theorem readLE_created {offset bytes v : ℕ} (hs : ⟨offset, leBytes bytes v⟩ ∈ initStores hb n devid)
    (hv : v < 256 ^ bytes) : readLE (Created.at mem hb n devid).mem (hb + offset) bytes = v :=
  ((Store.held_writeAll (initStores_apart hb n devid) _ hs).readLE).trans (Nat.mod_eq_of_lt hv)

theorem mem_initStores_links {s : Store} (hs : s ∈ (linkStores (indexSize n) (n - 1)).1) :
    s ∈ initStores hb n devid :=
  List.mem_append_left _ (List.mem_append_right _ hs)

theorem toNat_lt_word (w : Word) : w.toNat < 256 ^ 8 := w.isLt

theorem created_headers (hspace : hb + 48 < 2 ^ 64) : (Created.at mem hb n devid).headers = hb + 48 :=
  readLE_created (by simp [initStores]) (by norm_num; omega)

theorem created_payloads (hn : n < 2 ^ 32) (hspace : hb + (48 + 24 * n) < 2 ^ 64) :
    (Created.at mem hb n devid).payloads = hb + (48 + 24 * n) := by
  rw [← getPayloadStart_eq hn] at hspace ⊢
  exact readLE_created (by simp [initStores]) (by norm_num; omega)

theorem created_next (hspace : hb + 48 < 2 ^ 64) (raw : Buffer) {i : ℕ} (hi : i < n) :
    (Created.at mem hb n devid).next i = ((initBuffer raw n devid).headers i).next := by
  have hlinks := congrArg Prod.fst (linkStores_eq (indexSize n) raw.headers (n - 1))
  have hmem : nextStore i ((initBuffer raw n devid).headers i).next ∈ initStores hb n devid := by
    apply mem_initStores_links
    rw [hlinks]
    exact List.mem_map.mpr ⟨i, List.mem_range.mpr (by omega), rfl⟩
  have hread := @readLE_created n hb mem devid _ _ _ hmem (toNat_lt_word _)
  have hplace : ((Created.at mem hb n devid).header i).start + CType.offsetOf headerMembers 0 =
      hb + headerOffset i := by
    change (Created.at mem hb n devid).headers + i * headerT.size + 0 = _
    rw [created_headers hspace, headerOffset, getHeaderStart_eq]
    omega
  unfold Created.next
  rw [hplace, hread, BitVec.ofNat_toNat, BitVec.setWidth_eq]

/-- The memory holds the buffer that `initBuffer` describes. -/
theorem created_shows (hn : n < 2 ^ 32) (hspace : hb + 48 < 2 ^ 64) (raw : Buffer) :
    (Created.at mem hb n devid).Shows n (initBuffer raw n devid) where
  free_stack := by
    have hlinks := congrArg Prod.snd (linkStores_eq (indexSize n) raw.headers (n - 1))
    have hread : readLE (Created.at mem hb n devid).mem (hb + BufferT.free_stack) 8 =
        (linkStores (indexSize n) (n - 1)).2.toNat :=
      readLE_created (by simp [initStores]) (toNat_lt_word _)
    change BitVec.ofNat 64 (readLE _ (hb + BufferT.free_stack) 8) = _
    rw [hread, BitVec.ofNat_toNat, BitVec.setWidth_eq]
    exact hlinks
  ready_stack := by
    have hread : readLE (Created.at mem hb n devid).mem (hb + BufferT.ready_stack) 8 = 0 :=
      readLE_created (by simp [initStores]) (by norm_num)
    exact congrArg (BitVec.ofNat 64) hread
  index_size := by
    have hle := indexSize_le hn
    have hread : readLE (Created.at mem hb n devid).mem (hb + BufferT.index_size) 4 = indexSize n :=
      readLE_created (by simp [initStores]) (by norm_num; omega)
    exact hread
  device_id := by
    have hread : readLE (Created.at mem hb n devid).mem (hb + BufferT.device_id) 4 = devid.toNat :=
      readLE_created (by simp [initStores]) devid.isLt
    change BitVec.ofNat 32 (readLE _ (hb + BufferT.device_id) 4) = _
    rw [hread, BitVec.ofNat_toNat, BitVec.setWidth_eq]
    rfl
  next := fun _ hi => created_next hspace raw hi

def Part.span : Part n → ℕ × ℕ
  | buffer => (0, 48)
  | header i => (48 + i * 24, 48 + i * 24 + 24)
  | payload i => (48 + 24 * n + i * 4096, 48 + 24 * n + i * 4096 + 4096)

section

variable (hn : n < 2 ^ 32) (hspace : hb + (48 + 24 * n) < 2 ^ 64)

include hn hspace

theorem part_start (p : Part n) : (p.object (Created.at mem hb n devid)).start = hb + p.span.1 := by
  cases p with
  | buffer => rfl
  | header i =>
    change (Created.at mem hb n devid).headers + i * headerT.size = _
    rw [created_headers (by omega), headerT_size, add_assoc]
    rfl
  | payload i =>
    change (Created.at mem hb n devid).payloads + i * payloadT.size = _
    rw [created_payloads hn hspace, payloadT_size, add_assoc]
    rfl

theorem part_finish (p : Part n) : (p.object (Created.at mem hb n devid)).finish = hb + p.span.2 := by
  rw [CObject.finish, part_start hn hspace, add_assoc]
  apply congrArg (hb + ·)
  cases p with
  | buffer => rfl
  | header i => exact congrArg (_ + ·) headerT_size
  | payload i => exact congrArg (_ + ·) payloadT_size

theorem part_apart {p q : Part n} (h : p.span.2 ≤ q.span.1) :
    Disjoint (p.object (Created.at mem hb n devid)).bytes (q.object (Created.at mem hb n devid)).bytes := by
  apply CObject.disjoint_of_le
  rw [part_finish hn hspace, part_start hn hspace]
  exact Nat.add_le_add_left h hb

theorem part_disjoint : Pairwise fun p q : Part n => Disjoint
    (p.object (Created.at mem hb n devid)).bytes (q.object (Created.at mem hb n devid)).bytes := by
  intro p q hne
  have hbuffer (i : Fin n) : (Part.buffer : Part n).span.2 ≤ (Part.header i).span.1 :=
    Nat.le_add_right _ _
  have hbuffer' (i : Fin n) : (Part.buffer : Part n).span.2 ≤ (Part.payload i).span.1 := by
    simp only [Part.span]
    omega
  have hheader (i j : Fin n) : (Part.header i).span.2 ≤ (Part.payload j).span.1 := by
    simp only [Part.span]
    omega
  rcases p with _ | i | i <;> rcases q with _ | j | j
  · exact absurd rfl hne
  · exact part_apart hn hspace (hbuffer j)
  · exact part_apart hn hspace (hbuffer' j)
  · exact (part_apart hn hspace (hbuffer i)).symm
  · exact CObject.element_disjoint _ _ fun h => hne (congrArg Part.header (Fin.ext h))
  · exact part_apart hn hspace (hheader i j)
  · exact (part_apart hn hspace (hbuffer' i)).symm
  · exact (part_apart hn hspace (hheader j i)).symm
  · exact CObject.element_disjoint _ _ fun h => hne (congrArg Part.payload (Fin.ext h))

theorem part_aligned (haligned : getBufferAlignment ∣ hb) (p : Part n) :
    (p.object (Created.at mem hb n devid)).Aligned := by
  have hb8 : 8 ∣ hb := haligned
  cases p with
  | buffer => exact hb8
  | header i =>
    apply CObject.element_aligned
    rw [created_headers (by omega), headerT_align]
    omega
  | payload i =>
    apply CObject.element_aligned
    rw [created_payloads hn hspace]
    have hoffset : 8 ∣ hb + (48 + 24 * n) := by omega
    exact hoffset

theorem part_inside (p : Part n) :
    (p.object (Created.at mem hb n devid)).bytes ⊆ Set.Ico hb (hb + getBufferSize n) := by
  apply CObject.bytes_subset
  · rw [part_start hn hspace]
    exact Nat.le_add_right _ _
  · rw [part_finish hn hspace, getBufferSize_eq hn]
    apply Nat.add_le_add_left
    rcases p with _ | i | i <;> simp only [Part.span] <;> omega

end

theorem initBuffer_linked (raw : Buffer) (hpos : n ≠ 0) (hn : n < 2 ^ 32) :
    Linked 0#64 (fun i => packetPtr (indexSize n) i 0) (fun i => ((initBuffer raw n devid).headers i).next)
      (initBuffer raw n devid).free_stack (List.range n).reverse := by
  have hle := le_two_pow_indexSize hn
  have hsize := indexSize_le hn
  have hlinked := linked_linkLoop (indexSize n) (by omega) raw.headers (n - 1) (by omega)
  rwa [Nat.sub_add_cancel (by omega)] at hlinked

theorem initBuffer_top (raw : Buffer) (hpos : n ≠ 0) (hn : n < 2 ^ 32) :
    (initBuffer raw n devid).free_stack = packetPtr (indexSize n) (n - 1) 0 := by
  have hlinked := @initBuffer_linked n devid raw hpos hn
  obtain ⟨k, rfl⟩ := Nat.exists_eq_succ_of_ne_zero hpos
  rw [List.range_succ, List.reverse_append] at hlinked
  exact hlinked.1

theorem linkLoop_next (is : ℕ) (h : is < 64) (headers : ℕ → Header) {i k : ℕ} (hi : i < k) :
    ((linkLoop is headers k).1 (i + 1)).next = packetPtr is i 0 := by
  induction k with
  | zero => omega
  | succ k ih =>
    rcases Nat.lt_succ_iff_lt_or_eq.mp hi with hlt | rfl
    · have hne : i + 1 ≠ k + 1 := by omega
      simp only [linkLoop, Function.update_of_ne hne]
      exact ih hlt
    · simp only [linkLoop, Function.update_self]
      cases i with
      | zero => exact (packetPtr_zero_zero is h).symm
      | succ i => exact (packetPtr_pos_zero is (Nat.succ_ne_zero i)).symm

/-- The pointers of the construction are the first pointers of the packets. -/
theorem initialPtrs_eq (hpos : n ≠ 0) (hn : n < 2 ^ 32) (hspace : hb + 48 < 2 ^ 64) :
    (Created.at mem hb n devid).initialPtrs n =
      ((n - 1) :: List.range (n - 1)).map fun i => packetPtr (indexSize n) i 0 := by
  have hshows : (Created.at mem hb n devid).Shows n (initBuffer .blank n devid) :=
    created_shows hn hspace .blank
  have htop := @initBuffer_top n devid .blank hpos hn
  have hsize := indexSize_le hn
  unfold Created.initialPtrs
  rw [hshows.free_stack, htop, List.map_cons, List.range'_eq_map_range, List.map_map]
  refine congrArg (_ :: ·) (List.map_congr_left fun i hi => ?_)
  have hlt := List.mem_range.mp hi
  rw [Function.comp_apply, Nat.add_comm, hshows.next (i + 1) (by omega)]
  exact linkLoop_next _ (by omega) _ hlt

/-- The pointers of the construction have the indices of the packets, each once. -/
theorem initialPtrs_index (hpos : n ≠ 0) (hn : n < 2 ^ 32) (hspace : hb + 48 < 2 ^ 64) :
    ((Created.at mem hb n devid).initialPtrs n).map (fun ptr => getPtrIndex ptr (indexSize n)) =
      (n - 1) :: List.range (n - 1) := by
  have hle := le_two_pow_indexSize hn
  have hsize := indexSize_le hn
  rw [initialPtrs_eq hpos hn hspace, List.map_map]
  refine (List.map_congr_left fun i hi => ?_).trans (List.map_id _)
  have hlt : i < n := by
    rcases List.mem_cons.mp hi with rfl | hi
    · omega
    · have := List.mem_range.mp hi
      omega
  exact getPtrIndex_packetPtr (by omega) (by omega) 0

theorem last_cons_range_perm (hpos : n ≠ 0) : ((n - 1) :: List.range (n - 1)).Perm (List.range n) := by
  conv_rhs => rw [← Nat.sub_add_cancel (Nat.one_le_iff_ne_zero.mpr hpos), List.range_succ]
  exact (List.perm_append_singleton _ _).symm

/-- Creation builds the buffer: its objects lie apart inside of the allocation, its pointers name
the packets, and the free stack holds all of them. -/
theorem created_built (hpos : n ≠ 0) (hn : n < 2 ^ 32) (haligned : getBufferAlignment ∣ hb)
    (hspace : hb + getBufferSize n ≤ 2 ^ 64) : (Created.at mem hb n devid).Built n := by
  have hsize := getBufferSize_eq hn
  have hpayloads : hb + (48 + 24 * n) < 2 ^ 64 := by omega
  have hindex := @initialPtrs_index n hb mem devid hpos hn (by omega)
  have hshows : (Created.at mem hb n devid).Shows n (initBuffer .blank n devid) :=
    created_shows hn (by omega) .blank
  have hnumber : (Created.at mem hb n devid).indexSize = indexSize n := hshows.index_size
  have hperm := last_cons_range_perm hpos
  have hnodup : ((n - 1) :: List.range (n - 1)).Nodup := hperm.nodup_iff.mpr List.nodup_range
  rw [← hindex] at hnodup
  have hle := le_two_pow_indexSize hn
  have hbits := indexSize_le hn
  refine ⟨part_disjoint hn hpayloads, part_aligned hn hpayloads haligned, part_inside hn hpayloads,
    hnodup.of_map _, ?_, ?_, ?_⟩
  · intro ptr hptr
    rw [hnumber]
    have hmem : getPtrIndex ptr (indexSize n) ∈ (n - 1) :: List.range (n - 1) := by
      rw [← hindex]
      exact List.mem_map_of_mem hptr
    exact List.mem_range.mp (hperm.mem_iff.mp hmem)
  · rw [hnumber]
    exact fun p hp q hq heq => List.inj_on_of_nodup_map hnodup hp hq heq
  · refine ⟨(List.range n).reverse, List.reverse_perm _, ?_⟩
    rw [hnumber, hshows.free_stack]
    have hlinked := @initBuffer_linked n devid .blank hpos hn
    have hlt : ∀ i ∈ (List.range n).reverse, i < n := fun i hi =>
      List.mem_range.mp (List.mem_reverse.mp hi)
    refine (hlinked.congr (fun _ _ => rfl) fun i hi => hshows.next i (hlt i hi)).visits ?_ ?_
    · intro i hi
      have := hlt i hi
      exact packetPtr_ne_zero (by omega) (by omega) 0
    · intro i hi
      have := hlt i hi
      exact getPtrIndex_packetPtr (by omega) (by omega) 0

end

def getPtrTag (ptr : Word) (index_size : ℕ) : ℕ := ptr.toNat / 2 ^ index_size

/-- The pointer with which a packet goes back to the free stack names the same packet, and is
another one. -/
structure Recycled (ptr ptr' : Word) (index_size : ℕ) : Prop where
  ne_zero : ptr' ≠ 0#64
  index : getPtrIndex ptr' index_size = getPtrIndex ptr index_size
  tag : getPtrTag ptr' index_size ≠ getPtrTag ptr index_size

theorem incPtrTag_recycled (ptr : Word) {is : ℕ} (h : is < 63) : Recycled ptr (incPtrTag ptr is) is := by
  have hpos : 0 < 2 ^ is := by positivity
  have hspace : 2 ^ (64 - is) * 2 ^ is = 2 ^ 64 := tagSpace_mul (by omega)
  by_cases hwrap : ptr.toNat + 2 ^ is < 2 ^ 64
  · have hinc := toNat_incPtrTag_of_lt (by omega) hwrap
    refine ⟨?_, ?_, ?_⟩
    · intro hzero
      rw [hzero] at hinc
      have : (0#64).toNat = 0 := rfl
      omega
    · rw [getPtrIndex_eq_mod _ (by omega), getPtrIndex_eq_mod _ (by omega), hinc, Nat.add_mod_right]
    · rw [getPtrTag, getPtrTag, hinc, Nat.add_div_right _ hpos]
      omega
  · obtain ⟨i, hi⟩ : ∃ i, ptr.toNat + 2 ^ is = i + 2 ^ 64 := ⟨_, (Nat.sub_add_cancel (by omega)).symm⟩
    have hlt : i < 2 ^ is := by
      have := ptr.isLt
      omega
    have hinc := toNat_incPtrTag_of_wrap (by omega) hlt hi
    have hlast : ptr.toNat = i + (2 ^ (64 - is) - 1) * 2 ^ is := by
      have hle : 2 ^ is ≤ 2 ^ 64 := Nat.pow_le_pow_right (by norm_num) (by omega)
      rw [Nat.sub_one_mul, hspace]
      omega
    have hfour : 2 ^ 2 ≤ 2 ^ (64 - is) := Nat.pow_le_pow_right (by norm_num) (by omega)
    have hfirst := firstTag_le_one i
    refine ⟨?_, ?_, ?_⟩
    · intro hzero
      have hnull : 0 = i + firstTag i * 2 ^ is := by rw [← hinc, hzero]; rfl
      obtain rfl : i = 0 := by omega
      rw [firstTag, if_pos rfl] at hnull
      omega
    · rw [getPtrIndex_eq_mod _ (by omega), getPtrIndex_eq_mod _ (by omega), hinc, hlast,
        Nat.add_mul_mod_self_right, Nat.add_mul_mod_self_right]
    · rw [getPtrTag, getPtrTag, hinc, hlast, Nat.add_mul_div_right _ _ hpos,
        Nat.add_mul_div_right _ _ hpos, Nat.div_eq_of_lt hlt]
      omega

/-- `create_buffer_t` succeeds on every allocation that is aligned, the buffer is built, and a
packet that is returned with `inc_ptr_tag` keeps its index and changes its tag. -/
theorem buffer_construction (host_malloc : ℕ → Option ℕ) (mem : ℕ → Byte) (n : ℕ) (devid : BitVec 32)
    (hb : ℕ) (hpos : 1 ≤ n) (hn : n < 2 ^ 32)
    (hmalloc : host_malloc ((getBufferSize n + getBufferAlignment) % 2 ^ 64) = some hb)
    (hnull : hb ≠ 0) (haligned : getBufferAlignment ∣ hb)
    (hspace : hb + (getBufferSize n + getBufferAlignment) ≤ 2 ^ 64) :
    ∃ c, createBuffer host_malloc mem n devid = .ok c ∧ c.hb = hb ∧ c.Built n ∧
      ∀ ptr, Recycled ptr (incPtrTag ptr c.indexSize) c.indexSize := by
  refine ⟨_, createBuffer_eq_ok (by omega) hmalloc hnull haligned, rfl,
    created_built (by omega) hn haligned (by omega), fun ptr => ?_⟩
  have hbits := indexSize_le hn
  have hsize := getBufferSize_eq hn
  have hnumber : (Created.at mem hb n devid).indexSize = indexSize n :=
    (created_shows hn (by omega) .blank).index_size
  rw [hnumber]
  exact incPtrTag_recycled ptr (by omega)

/-- Three packets at the address 4096. -/
theorem buffer_construction_three : ∃ c, createBuffer (fun _ => some 4096) (fun _ => 0) 3 0 = .ok c ∧
    c.hb = 4096 ∧ c.Built 3 ∧ ∀ ptr, Recycled ptr (incPtrTag ptr c.indexSize) c.indexSize :=
  buffer_construction (fun _ => some 4096) (fun _ => 0) 3 0 4096 (by norm_num) (by norm_num) rfl
    (by norm_num) (by decide) (by decide)

end Aomp.Hostexec
