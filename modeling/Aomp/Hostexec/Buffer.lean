import Aomp.Foundations.LinkedChain
import Aomp.Hostexec.Pointer

/-!
# Packets and the buffer shared by device and host

Headers and payloads are indexed by packet. The two stacks are intrusive: their tops
are packet pointers and the links are the `next` fields of the headers. A fresh
buffer has every packet on the free stack.
-/
namespace Aomp.Hostexec

open Foundations

def CONTROL_OFFSET_READY_FLAG : ℕ := 0
def CONTROL_WIDTH_READY_FLAG : ℕ := 1

/-- `get_control_field` -/
def getControlField (control : BitVec 32) (offset width : ℕ) : BitVec 32 :=
  (control >>> offset) &&& ((1#32 <<< width) - 1#32)

/-- `set_control_field` -/
def setControlField (control : BitVec 32) (offset width : ℕ) (value : BitVec 32) : BitVec 32 :=
  let mask := ~~~(((1#32 <<< width) - 1#32) <<< offset)
  (control &&& mask) ||| (value <<< offset)

/-- `get_ready_flag` -/
def getReadyFlag (control : BitVec 32) : BitVec 32 :=
  getControlField control CONTROL_OFFSET_READY_FLAG CONTROL_WIDTH_READY_FLAG

/-- `set_ready_flag` -/
def setReadyFlag (control : BitVec 32) : BitVec 32 :=
  setControlField control CONTROL_OFFSET_READY_FLAG CONTROL_WIDTH_READY_FLAG 1#32

/-- `reset_ready_flag` -/
def resetReadyFlag (control : BitVec 32) : BitVec 32 :=
  setControlField control CONTROL_OFFSET_READY_FLAG CONTROL_WIDTH_READY_FLAG 0#32

theorem getReadyFlag_eq (control : BitVec 32) : getReadyFlag control = control &&& 1#32 := by
  simp [getReadyFlag, getControlField, CONTROL_OFFSET_READY_FLAG, CONTROL_WIDTH_READY_FLAG]

@[simp] theorem getReadyFlag_setReadyFlag_zero : getReadyFlag (setReadyFlag 0#32) = 1#32 := by decide

@[simp] theorem getReadyFlag_resetReadyFlag (control : BitVec 32) :
    getReadyFlag (resetReadyFlag control) = 0#32 := by
  have hmask : resetReadyFlag control = control &&& ~~~1#32 := by
    simp [resetReadyFlag, setControlField, CONTROL_OFFSET_READY_FLAG, CONTROL_WIDTH_READY_FLAG]
  rw [getReadyFlag_eq, hmask, BitVec.and_assoc]
  simp

/-- `header_t` -/
structure Header where
  /-- Tagged pointer to the next packet in an intrusive stack -/
  next : Word
  /-- Bitmask that represents payload slots with valid data -/
  activemask : Word
  /-- Service ID requested by the wave -/
  service : BitVec 32
  /-- READY flag is bit 0. Indicates packet awaiting a host response. -/
  control : BitVec 32
  deriving DecidableEq

abbrev Slot := Fin 8 → Word

/-- `payload_t`: 64 slots of 8 words. -/
abbrev Payload := Fin 64 → Slot

/-- The two stacks of a buffer. -/
inductive StackId
  | free
  | ready
  deriving DecidableEq

/-- `buffer_t`, with the arrays it points to and the value of its doorbell signal. -/
structure Buffer where
  headers : ℕ → Header
  payloads : ℕ → Payload
  doorbell : Word
  free_stack : Word
  ready_stack : Word
  index_size : ℕ
  device_id : BitVec 32

namespace Buffer

variable (b : Buffer)

/-- The index that `get_header` and `get_payload` use. -/
def index (ptr : Word) : ℕ := getPtrIndex ptr b.index_size

/-- `get_header` -/
def getHeader (ptr : Word) : Header := b.headers (b.index ptr)

/-- `get_payload` -/
def getPayload (ptr : Word) : Payload := b.payloads (b.index ptr)

def top : StackId → Word
  | .free => b.free_stack
  | .ready => b.ready_stack

def setTop (st : StackId) (v : Word) : Buffer :=
  match st with
  | .free => { b with free_stack := v }
  | .ready => { b with ready_stack := v }

@[simps -fullyApplied] def setHeader (ptr : Word) (h : Header) : Buffer :=
  { b with headers := Function.update b.headers (b.index ptr) h }

@[simps -fullyApplied] def setPayload (ptr : Word) (p : Payload) : Buffer :=
  { b with payloads := Function.update b.payloads (b.index ptr) p }

end Buffer

/-- `__builtin_clz` on a non-zero 32-bit value. -/
def builtinClz (n : ℕ) : ℕ := 31 - Nat.log2 n

/-- The index size that `create_buffer_t` chooses. -/
def indexSize (num_packets : ℕ) : ℕ :=
  if 2 < num_packets then 32 - builtinClz num_packets else 1

/-- The link loop of `create_buffer_t` after `k` rounds: the headers and `next`. -/
def linkLoop (index_size : ℕ) (headers : ℕ → Header) : ℕ → (ℕ → Header) × Word
  | 0 => (Function.update headers 0 { headers 0 with next := 0#64 }, 1#64 <<< index_size)
  | k + 1 =>
    let (headers, next) := linkLoop index_size headers k
    (Function.update headers (k + 1) { headers (k + 1) with next := next }, BitVec.ofNat 64 (k + 1))

/-- The initialisation in `create_buffer_t` of the allocated memory `raw`. -/
def initBuffer (raw : Buffer) (num_packets : ℕ) (devid : BitVec 32) : Buffer :=
  let index_size := indexSize num_packets
  let (headers, next) := linkLoop index_size raw.headers (num_packets - 1)
  { raw with
    headers := headers
    index_size := index_size
    free_stack := next
    ready_stack := 0#64
    device_id := devid }

section

variable {n : ℕ}

theorem indexSize_eq (h : 2 < n) (hn : n < 2 ^ 32) : indexSize n = Nat.log2 n + 1 := by
  have hlog : Nat.log2 n < 32 := (Nat.log2_lt (by omega)).mpr hn
  rw [indexSize, if_pos h, builtinClz]
  omega

theorem indexSize_le (hn : n < 2 ^ 32) : indexSize n ≤ 32 := by
  by_cases h : 2 < n
  · have hlog : Nat.log2 n < 32 := (Nat.log2_lt (by omega)).mpr hn
    rw [indexSize_eq h hn]
    omega
  · simp [indexSize, h]

/-- Every packet index fits the chosen index size. -/
theorem le_two_pow_indexSize (hn : n < 2 ^ 32) : n ≤ 2 ^ indexSize n := by
  by_cases h : 2 < n
  · rw [indexSize_eq h hn]
    exact Nat.lt_log2_self.le
  · rw [indexSize, if_neg h]
    omega

theorem packetPtr_zero_zero (is : ℕ) (h : is < 64) : packetPtr is 0 0 = 1#64 <<< is := by
  apply BitVec.eq_of_toNat_eq
  rw [toNat_packetPtr h (by positivity), toNat_one_shiftLeft h]
  simp [firstTag]

theorem packetPtr_pos_zero (is : ℕ) {i : ℕ} (hpos : i ≠ 0) :
    packetPtr is i 0 = BitVec.ofNat 64 i := by
  simp [packetPtr, firstTag, hpos]

/-- After `k` rounds the packets `k, …, 0` hang off `next`. -/
theorem linked_linkLoop (is : ℕ) (h : is < 64) (headers : ℕ → Header) (k : ℕ) (hk : k < 2 ^ is) :
    Linked 0#64 (fun i => packetPtr is i 0) (fun i => ((linkLoop is headers k).1 i).next)
      (linkLoop is headers k).2 (List.range (k + 1)).reverse := by
  induction k with
  | zero => simp [linkLoop, packetPtr_zero_zero is h]
  | succ k ih =>
    have hprev := ih (by omega)
    rw [List.range_succ, List.reverse_append]
    refine ⟨by simp [linkLoop, packetPtr_pos_zero is (Nat.succ_ne_zero k)], ?_⟩
    simp only [linkLoop, Function.update_self]
    refine hprev.congr (fun _ _ => rfl) fun i hi => ?_
    have : i ≠ k + 1 := by
      have := List.mem_range.mp (List.mem_reverse.mp hi)
      omega
    simp [Function.update_of_ne this]

end

end Aomp.Hostexec
