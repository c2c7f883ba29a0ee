import Dbms18.Lib.Block
import Dbms18.Lib.Double
import Dbms18.Lib.Fault
import Dbms18.Lib.Run

/-!
# `MessageBuffer` (`include/common/message.h`)

The growable buffer a session reads messages into and builds messages in. `data` is the block
`data_` points to, so `data.length` is the number of bytes really allocated; `bufferLength` is what
the class believes to be allocated (`Capacity()`).

`append` stores the new capacity in `buffer_length_` before it calls `ReAlloc`, and `ReAlloc`
compares the requested size with that same field, so it never reallocates there (`reAlloc_self`):
the block keeps its size while the capacity grows. `safe_iff_room` says exactly which runs stay
inside the block.
-/

namespace Dbms18

def sizeT (n : Nat) : Nat := n % 2 ^ 64

structure MessageBuffer where
  data : Bytes
  dataLength : Nat
  bufferLength : Nat
deriving DecidableEq

namespace MessageBuffer

/-- The constructor: a block of `buffer_length` bytes, with `buffer_length_` still zero. The
contents of fresh memory are unspecified; nothing reads them before they are written. -/
def new : MessageBuffer := ⟨List.replicate 512 0, 0, 0⟩

def realloc (block : Bytes) (size : Nat) : Bytes :=
  block.take size ++ List.replicate (size - block.length) 0

/-- `size < buffer_length_ * 0.2`: both operands are doubles, and the double `0.2` is
`3602879701896397 / 2 ^ 54`. -/
def belowFifth (size bufferLength : Nat) : Bool :=
  roundDouble size * 2 ^ 54 < roundDouble (roundDouble bufferLength * 3602879701896397)

def reAlloc (b : MessageBuffer) (size : Nat) : MessageBuffer :=
  if size > b.bufferLength ∨ (belowFifth size b.bufferLength ∧ b.bufferLength > 512) then
    { b with bufferLength := size, data := realloc b.data size }
  else b

def capacity (b : MessageBuffer) : Nat := b.bufferLength

def getSize (b : MessageBuffer) : Nat := b.dataLength

def setSize (b : MessageBuffer) (size : Nat) : MessageBuffer := { b with dataLength := size }

/-- The part of `Append` before the copy. -/
def grow (b : MessageBuffer) (len : Nat) : MessageBuffer :=
  if sizeT (b.dataLength + len) > b.bufferLength then
    let b := { b with bufferLength := sizeT (b.dataLength + len) }
    let b := { b with bufferLength := sizeT (b.bufferLength * 2) }
    b.reAlloc b.bufferLength
  else b

def append (b : MessageBuffer) (bytes : Bytes) : Res MessageBuffer :=
  let b := b.grow bytes.length
  if b.dataLength + bytes.length ≤ b.data.length then
    .ok { b with
      data := Block.write b.data b.dataLength bytes
      dataLength := sizeT (b.dataLength + bytes.length) }
  else .error .outOfBounds

/-! ### Growing -/

theorem belowFifth_self (n : Nat) : belowFifth n n = false := by
  have h := roundDouble_le_two_mul (roundDouble n * 3602879701896397)
  simp only [belowFifth, decide_eq_false_iff_not, Nat.not_lt]
  omega

theorem reAlloc_self (b : MessageBuffer) : b.reAlloc b.bufferLength = b := by
  simp [reAlloc, belowFifth_self]

theorem grow_eq (b : MessageBuffer) (len : Nat) :
    b.grow len = ⟨b.data, b.dataLength,
      if sizeT (b.dataLength + len) > b.bufferLength then sizeT (sizeT (b.dataLength + len) * 2)
      else b.bufferLength⟩ := by
  unfold grow
  split
  · exact reAlloc_self _
  · rfl

@[simp] theorem grow_data (b : MessageBuffer) (len : Nat) : (b.grow len).data = b.data := by
  rw [grow_eq]

@[simp] theorem grow_dataLength (b : MessageBuffer) (len : Nat) :
    (b.grow len).dataLength = b.dataLength := by
  rw [grow_eq]

theorem length_realloc (block : Bytes) (size : Nat) : (realloc block size).length = size := by
  simp only [realloc, List.length_append, List.length_take, List.length_replicate]
  omega

theorem length_reAlloc_le (b : MessageBuffer) (size : Nat) : (b.reAlloc size).data.length ≤ max b.data.length size := by
  unfold reAlloc
  split
  · rw [length_realloc]
    exact Nat.le_max_right _ _
  · exact Nat.le_max_left _ _

theorem reAlloc_fits {b : MessageBuffer} (h : b.capacity ≤ b.data.length) (size : Nat) :
    size ≤ (b.reAlloc size).data.length ∧ (b.reAlloc size).capacity ≤ (b.reAlloc size).data.length := by
  simp only [capacity] at h
  simp only [reAlloc, capacity]
  split
  · simp [length_realloc]
  · next hkeep =>
    rw [not_or] at hkeep
    exact ⟨(Nat.not_lt.1 hkeep.1).trans h, h⟩

end MessageBuffer

/-! ### What a session does with its buffers -/

/-- One operation of a session on a buffer: `ReAlloc(n)` and `SetSize(n)` with the 32-bit length of an
incoming message (`ReadBody`, `ProcessStartupPacket`), `BackendMsgBegin`, or one `Append`. -/
inductive BufferStep
  | receive (n : UInt32)
  | msgBegin (msgId : UInt8)
  | append (bytes : Bytes)

/-- `Session` either receives a message or builds one: `BackendMsgBegin` and the appended parts. -/
inductive SessionStep
  | receive (n : UInt32)
  | build (msgId : UInt8) (parts : List (Bytes))

def SessionStep.steps : SessionStep → List BufferStep
  | .receive n => [.receive n]
  | .build msgId parts => .msgBegin msgId :: parts.map .append

namespace MessageBuffer

def msgBegin (b : MessageBuffer) (msgId : UInt8) : Res MessageBuffer := do
  let b ← (b.setSize 0).append [msgId]
  return b.setSize (1 + 4)

def step (b : MessageBuffer) : BufferStep → Res MessageBuffer
  | .receive n => .ok ((b.reAlloc n.toNat).setSize n.toNat)
  | .msgBegin msgId => b.msgBegin msgId
  | .append bytes => b.append bytes

structure Fits (b : MessageBuffer) : Prop where
  data : b.dataLength ≤ b.data.length
  capacity : b.capacity ≤ b.data.length

/-- What a step needs of the buffer it is applied to: a message begins on a block of five bytes, and
an `Append` either fits the capacity or, where it takes the growing branch, leaves the doubled
length within the block that is already there. -/
def Room (b : MessageBuffer) : BufferStep → Prop
  | .receive _ => True
  | .msgBegin _ => 5 ≤ b.data.length
  | .append bytes => b.dataLength + bytes.length ≤ b.bufferLength ∨
      2 * (b.dataLength + bytes.length) ≤ b.data.length

instance (b : MessageBuffer) : (s : BufferStep) → Decidable (b.Room s)
  | .receive _ => .isTrue trivial
  | .msgBegin _ => inferInstanceAs (Decidable (5 ≤ b.data.length))
  | .append bytes => inferInstanceAs (Decidable (b.dataLength + bytes.length ≤ b.bufferLength ∨
      2 * (b.dataLength + bytes.length) ≤ b.data.length))

def Small (b : MessageBuffer) : Prop := b.data.length < 2 ^ 63

variable {b b' : MessageBuffer}

theorem append_eq_ok {bytes : Bytes} (h : b.append bytes = .ok b') :
    b.dataLength + bytes.length ≤ b.data.length ∧ b'.data.length = b.data.length ∧
      b'.dataLength = sizeT (b.dataLength + bytes.length) ∧
      b'.bufferLength = (b.grow bytes.length).bufferLength := by
  simp only [append, grow_data, grow_dataLength] at h
  split at h
  · rename_i hlen
    cases h
    exact ⟨hlen, Block.length_write hlen, rfl, rfl⟩
  · cases h

theorem exists_append (b : MessageBuffer) (bytes : Bytes) (h : b.dataLength + bytes.length ≤ b.data.length) :
    ∃ b', b.append bytes = .ok b' := by
  simp only [append, grow_data, grow_dataLength, if_pos h]
  exact ⟨_, rfl⟩

theorem msgBegin_eq_ok {msgId : UInt8} (h : b.msgBegin msgId = .ok b') :
    b'.data.length = b.data.length ∧ b'.dataLength = 5 := by
  obtain ⟨b₁, h₁, rfl⟩ := Res.map_eq_ok.1 h
  exact ⟨(append_eq_ok h₁).2.1, rfl⟩

theorem Small.step {s : BufferStep} (hb : b.Small) (h : b.step s = .ok b') :
    b'.Small := by
  cases s with
  | receive n =>
    cases h
    simp only [Small, reAlloc, setSize]
    split
    · rw [length_realloc]
      exact n.toNat_lt.trans (by decide)
    · exact hb
  | msgBegin msgId =>
    simp only [Small, (msgBegin_eq_ok h).1]
    exact hb
  | append bytes =>
    simp only [Small, (append_eq_ok h).2.1]
    exact hb

theorem append_fits_iff {b : MessageBuffer} (hb : b.Fits) (hs : b.Small) (bytes : Bytes) :
    (b.dataLength + bytes.length ≤ b.bufferLength ∨
      2 * (b.dataLength + bytes.length) ≤ b.data.length) ↔
    ∃ b', b.append bytes = .ok b' ∧ b'.Fits := by
  have hcap := hb.capacity
  simp only [Small, capacity] at hs hcap
  constructor
  · intro hroom
    have hlen : b.dataLength + bytes.length ≤ b.data.length := by omega
    have hw : sizeT (b.dataLength + bytes.length) = b.dataLength + bytes.length :=
      Nat.mod_eq_of_lt (by omega)
    have hw2 : 2 * (b.dataLength + bytes.length) ≤ b.data.length →
        sizeT ((b.dataLength + bytes.length) * 2) = 2 * (b.dataLength + bytes.length) := fun h =>
      (Nat.mod_eq_of_lt (by omega)).trans (Nat.mul_comm _ _)
    refine ⟨_, by simp only [append, grow_eq, if_pos hlen]; rfl, ?_, ?_⟩
    · simp only [Block.length_write hlen, hw]
      exact hlen
    · simp only [capacity, Block.length_write hlen, hw]
      split
      · have := hroom.resolve_left (by omega)
        rw [hw2 this]
        exact this
      · exact hcap
  · rintro ⟨b', h, hfit⟩
    obtain ⟨hlen, hd, -, hc⟩ := append_eq_ok h
    have hcap' := hfit.capacity
    have hw : sizeT (b.dataLength + bytes.length) = b.dataLength + bytes.length :=
      Nat.mod_eq_of_lt (by omega)
    rw [capacity, hc, hd, grow_eq] at hcap'
    simp only [hw] at hcap'
    split at hcap'
    · have hw2 : sizeT ((b.dataLength + bytes.length) * 2) = (b.dataLength + bytes.length) * 2 :=
        Nat.mod_eq_of_lt (by omega)
      rw [hw2] at hcap'
      omega
    · exact .inl (by omega)

theorem room_iff {b : MessageBuffer} (s : BufferStep) (hb : b.Fits ∧ b.Small) :
    b.Room s ↔ ∃ b', b.step s = .ok b' ∧ b'.Fits ∧ b'.Small := by
  obtain ⟨hb, hs⟩ := hb
  have key : (∃ b', b.step s = .ok b' ∧ b'.Fits) ↔ ∃ b', b.step s = .ok b' ∧ b'.Fits ∧ b'.Small :=
    exists_congr fun b' => and_congr_right fun h => (and_iff_left (hs.step h)).symm
  rw [← key]
  cases s with
  | receive n =>
    obtain ⟨hdata, hcapacity⟩ := reAlloc_fits hb.capacity n.toNat
    exact iff_of_true trivial ⟨_, rfl, hdata, hcapacity⟩
  | msgBegin msgId =>
    -- the type byte always has room on such a block, so only `SetSize(5)` matters
    have hfit : (b.setSize 0).Fits := ⟨Nat.zero_le _, hb.capacity⟩
    have hsmall : (b.setSize 0).Small := hs
    constructor
    · intro hroom
      obtain ⟨b₁, h₁, hfit₁⟩ := (append_fits_iff hfit hsmall [msgId]).1
        (.inr (by simp only [setSize, List.length_singleton]; exact (by decide : 2 * (0 + 1) ≤ 5).trans hroom))
      refine ⟨b₁.setSize (1 + 4), by simp only [step, msgBegin, h₁, Res.ok_bind, Res.pure_eq], ?_, hfit₁.capacity⟩
      simp only [setSize, (append_eq_ok h₁).2.1]
      exact hroom
    · rintro ⟨b', h, hfit'⟩
      obtain ⟨hlen, hsize⟩ := msgBegin_eq_ok h
      have hdata := hfit'.data
      rwa [hlen, hsize] at hdata
  | append bytes => exact append_fits_iff hb hs bytes

theorem length_new : new.data.length = 512 := List.length_replicate

theorem fits_new : new.Fits := ⟨Nat.zero_le _, Nat.zero_le _⟩

theorem small_new : new.Small := by
  unfold Small
  rw [length_new]
  decide

/-- A run of a session's steps stays inside the block at every step exactly when every step finds
the room it needs. -/
theorem safe_iff_room (run : List SessionStep) :
    Run.Safe step Fits new (run.flatMap SessionStep.steps) ↔
      Run.Guarded step Room new (run.flatMap SessionStep.steps) := by
  rw [Run.safe_and_iff (fun _ _ _ hB h => hB.step h) small_new]
  exact Run.safe_iff_guarded (fun _ s hb => room_iff s hb) ⟨fits_new, small_new⟩

theorem not_safe_of_long (msgId : UInt8) {part : Bytes} (h : 512 < 5 + part.length) :
    ¬ Run.Safe step Fits new (SessionStep.steps (.build msgId [part])) := by
  rintro ⟨-, b₁, h₁, -, b₂, h₂, -⟩
  obtain ⟨hlen₁, hsize⟩ := msgBegin_eq_ok h₁
  have hlen := (append_eq_ok h₂).1
  rw [hlen₁, length_new, hsize] at hlen
  omega

/-- One row of 600 bytes. -/
theorem not_safe_long_row : ¬ Run.Safe step Fits new
    ([SessionStep.build 68 [List.replicate 600 0]].flatMap SessionStep.steps) := by
  rw [List.flatMap_singleton]
  exact not_safe_of_long 68 (by rw [List.length_replicate]; decide)

end MessageBuffer

end Dbms18
