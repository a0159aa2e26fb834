import Doctrina.Lib.Ring
import Doctrina.Lib.Word64
/-!
# The byte ring buffer of deque.c

Indices are 64-bit words and every subtraction of them wraps, as in the
source.  The flexible array member `data` is the memory from its first byte
on; the block that `ringBufferCreate` allocates ends at offset `cap`.
-/

namespace Doctrina.Deque

open Doctrina.Lib.Ring

structure RingBufferWriter where
  head : UInt64
  tail : UInt64

structure RingBufferReader where
  head : UInt64
  tail : UInt64

structure RingBuffer where
  cap : UInt64
  writer : RingBufferWriter
  reader : RingBufferReader
  data : Nat → UInt8

def ringBufferCreate (cap : UInt64) : RingBuffer :=
  { cap, writer := ⟨0, cap⟩, reader := ⟨0, 0⟩, data := fun _ => 0 }

def ringBufferMask (self : RingBuffer) (index : UInt64) : UInt64 :=
  index &&& (self.cap - 1)

def ringBufferReaderCapacity (self : RingBuffer) : UInt64 :=
  self.reader.tail - self.reader.head

def ringBufferWriterCapacity (self : RingBuffer) : UInt64 :=
  self.writer.tail - self.writer.head

def ringBufferTryResize (self : RingBuffer) : RingBuffer :=
  if self.writer.head = self.writer.tail then
    { self with writer.tail := self.reader.head }
  else self

def ringBufferIncrement (self : RingBuffer) (size : UInt64) : RingBuffer :=
  { self with
    writer.head := self.writer.head + size
    reader.tail := self.reader.tail + size }

def ringBufferTryReset (self : RingBuffer) : RingBuffer :=
  if self.reader.head = self.reader.tail then
    { self with reader := ⟨self.writer.head, self.writer.head⟩ }
  else self

def ringBufferDecrement (self : RingBuffer) (size : UInt64) : RingBuffer :=
  { self with reader.head := self.reader.head + size }

/-- The assignment of `enqueue` between its two capacity tests. -/
def ringBufferRewind (self : RingBuffer) (size : UInt64) : RingBuffer :=
  if size > self.writer.head % self.cap then { self with writer.head := 0 } else self

/-- The copy of `enqueue` and the two index updates behind it. -/
def ringBufferAccept (self : RingBuffer) (data : List UInt8) (size : UInt64) :
    RingBuffer :=
  let pointer := (ringBufferMask self self.writer.head).toNat
  let self := { self with data := writeAt self.data pointer (data.take size.toNat) }
  ringBufferTryResize (ringBufferIncrement self size)

/-- Returns 0 when the bytes were stored and -1 when they were refused. -/
def ringBufferEnqueue (self : RingBuffer) (data : List UInt8) (size : UInt64) :
    RingBuffer × Int :=
  if size > ringBufferWriterCapacity self then (self, -1)
  else
    let self := ringBufferRewind self size
    if size > ringBufferWriterCapacity self then (self, -1)
    else (ringBufferAccept self data size, 0)

/-- Returns the copied bytes, `none` for the NULL of an empty buffer. -/
def ringBufferDequeue (self : RingBuffer) (size : UInt64) :
    RingBuffer × Option (List UInt8) :=
  if size > ringBufferReaderCapacity self then (self, none)
  else
    let data := readAt self.data (ringBufferMask self self.reader.head).toNat size.toNat
    (ringBufferTryReset (ringBufferDecrement self size), some data)

def ringBufferSize (self : RingBuffer) : UInt64 :=
  self.writer.head - self.reader.head

/-! ## What the index updates touch -/

@[simp] theorem cap_tryResize (self : RingBuffer) :
    (ringBufferTryResize self).cap = self.cap := by
  unfold ringBufferTryResize
  split <;> rfl

@[simp] theorem data_tryResize (self : RingBuffer) :
    (ringBufferTryResize self).data = self.data := by
  unfold ringBufferTryResize
  split <;> rfl

@[simp] theorem reader_tryResize (self : RingBuffer) :
    (ringBufferTryResize self).reader = self.reader := by
  unfold ringBufferTryResize
  split <;> rfl

@[simp] theorem writer_head_tryResize (self : RingBuffer) :
    (ringBufferTryResize self).writer.head = self.writer.head := by
  unfold ringBufferTryResize
  split <;> rfl

theorem writer_tail_tryResize (self : RingBuffer) :
    (ringBufferTryResize self).writer.tail =
      if self.writer.head = self.writer.tail then self.reader.head
      else self.writer.tail := by
  unfold ringBufferTryResize
  split <;> rfl

@[simp] theorem cap_tryReset (self : RingBuffer) :
    (ringBufferTryReset self).cap = self.cap := by
  unfold ringBufferTryReset
  split <;> rfl

@[simp] theorem data_tryReset (self : RingBuffer) :
    (ringBufferTryReset self).data = self.data := by
  unfold ringBufferTryReset
  split <;> rfl

@[simp] theorem writer_tryReset (self : RingBuffer) :
    (ringBufferTryReset self).writer = self.writer := by
  unfold ringBufferTryReset
  split <;> rfl

@[simp] theorem cap_rewind (self : RingBuffer) (size : UInt64) :
    (ringBufferRewind self size).cap = self.cap := by
  unfold ringBufferRewind
  split <;> rfl

@[simp] theorem data_rewind (self : RingBuffer) (size : UInt64) :
    (ringBufferRewind self size).data = self.data := by
  unfold ringBufferRewind
  split <;> rfl

@[simp] theorem reader_rewind (self : RingBuffer) (size : UInt64) :
    (ringBufferRewind self size).reader = self.reader := by
  unfold ringBufferRewind
  split <;> rfl

@[simp] theorem writer_tail_rewind (self : RingBuffer) (size : UInt64) :
    (ringBufferRewind self size).writer.tail = self.writer.tail := by
  unfold ringBufferRewind
  split <;> rfl

theorem rewind_of_le {self : RingBuffer} {size : UInt64}
    (h : size ≤ self.writer.head % self.cap) : ringBufferRewind self size = self :=
  if_neg (UInt64.not_lt.mpr h)

theorem rewind_of_lt {self : RingBuffer} {size : UInt64}
    (h : self.writer.head % self.cap < size) :
    ringBufferRewind self size = { self with writer.head := 0 } :=
  if_pos h

section Accept

variable (self : RingBuffer) (data : List UInt8) (size : UInt64)

@[simp] theorem cap_accept : (ringBufferAccept self data size).cap = self.cap := by
  simp [ringBufferAccept, ringBufferIncrement]

theorem data_accept : (ringBufferAccept self data size).data =
    writeAt self.data (ringBufferMask self self.writer.head).toNat
      (data.take size.toNat) := by
  simp [ringBufferAccept, ringBufferIncrement]

@[simp] theorem reader_accept : (ringBufferAccept self data size).reader =
    ⟨self.reader.head, self.reader.tail + size⟩ := by
  simp [ringBufferAccept, ringBufferIncrement]

@[simp] theorem writer_head_accept : (ringBufferAccept self data size).writer.head =
    self.writer.head + size := by
  simp [ringBufferAccept, ringBufferIncrement]

theorem writer_tail_accept : (ringBufferAccept self data size).writer.tail =
    if self.writer.head + size = self.writer.tail then self.reader.head
    else self.writer.tail := by
  simp only [ringBufferAccept, ringBufferIncrement, writer_tail_tryResize]

end Accept

theorem toNat_mask {self : RingBuffer} (hcap : Lib.Word64.IsPow2 self.cap)
    (index : UInt64) :
    (ringBufferMask self index).toNat = index.toNat % self.cap.toNat :=
  Lib.Word64.toNat_and_pred hcap index

/-! ## One spec for each operation -/

/-- An enqueue is refused with the buffer as it was, refused after its head
went back to 0, or accepted. -/
theorem enqueue_cases (self : RingBuffer) (data : List UInt8) (size : UInt64) :
    (ringBufferWriterCapacity self < size ∧
      ringBufferEnqueue self data size = (self, -1)) ∨
    (size ≤ ringBufferWriterCapacity self ∧
      ringBufferWriterCapacity (ringBufferRewind self size) < size ∧
      ringBufferEnqueue self data size = (ringBufferRewind self size, -1)) ∨
    (size ≤ ringBufferWriterCapacity self ∧
      size ≤ ringBufferWriterCapacity (ringBufferRewind self size) ∧
      ringBufferEnqueue self data size =
        (ringBufferAccept (ringBufferRewind self size) data size, 0)) := by
  unfold ringBufferEnqueue
  by_cases h₁ : ringBufferWriterCapacity self < size
  · exact .inl ⟨h₁, if_pos h₁⟩
  · rw [if_neg h₁]
    by_cases h₂ : ringBufferWriterCapacity (ringBufferRewind self size) < size
    · exact .inr (.inl ⟨UInt64.not_lt.mp h₁, h₂, if_pos h₂⟩)
    · exact .inr (.inr ⟨UInt64.not_lt.mp h₁, UInt64.not_lt.mp h₂, if_neg h₂⟩)

theorem dequeue_cases (self : RingBuffer) (size : UInt64) :
    (ringBufferReaderCapacity self < size ∧
      ringBufferDequeue self size = (self, none)) ∨
    (size ≤ ringBufferReaderCapacity self ∧
      ringBufferDequeue self size =
        (ringBufferTryReset (ringBufferDecrement self size),
          some (readAt self.data (ringBufferMask self self.reader.head).toNat
            size.toNat))) := by
  unfold ringBufferDequeue
  by_cases h : ringBufferReaderCapacity self < size
  · exact .inl ⟨h, if_pos h⟩
  · exact .inr ⟨UInt64.not_lt.mp h, if_neg h⟩

@[simp] theorem cap_enqueue (self : RingBuffer) (data : List UInt8) (size : UInt64) :
    (ringBufferEnqueue self data size).1.cap = self.cap := by
  rcases enqueue_cases self data size with ⟨_, h⟩ | ⟨_, _, h⟩ | ⟨_, _, h⟩ <;>
    simp [h]

@[simp] theorem cap_dequeue (self : RingBuffer) (size : UInt64) :
    (ringBufferDequeue self size).1.cap = self.cap := by
  rcases dequeue_cases self size with ⟨_, h⟩ | ⟨_, h⟩ <;>
    simp [h, ringBufferDecrement]

end Doctrina.Deque
