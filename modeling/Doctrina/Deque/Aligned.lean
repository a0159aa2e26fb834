import Doctrina.Deque.RingBuffer
/-!
# The indices under items of one size

Enqueues and dequeues of `size`-byte items keep all four indices at multiples
of `size`, also when they wrap, and the writer's head inside the buffer.  The
head is what the bound rests on: it goes back to 0 exactly from the end of the
buffer, whatever the capacity tests have let through.
-/

namespace Doctrina.Deque

open Doctrina.Lib.Ring Doctrina.Lib.Word64

structure Aligned (buf : RingBuffer) (size : UInt64) : Prop where
  cap_pow : IsPow2 buf.cap
  size_pos : 0 < size.toNat
  size_dvd : size.toNat ∣ buf.cap.toNat
  wh_le : buf.writer.head.toNat ≤ buf.cap.toNat
  wh_dvd : size.toNat ∣ buf.writer.head.toNat
  wt_dvd : size.toNat ∣ buf.writer.tail.toNat
  rh_dvd : size.toNat ∣ buf.reader.head.toNat
  rt_dvd : size.toNat ∣ buf.reader.tail.toNat

theorem aligned_create {cap size : UInt64} (hcap : IsPow2 cap) (hsize : 0 < size.toNat)
    (hdvd : size.toNat ∣ cap.toNat) : Aligned (ringBufferCreate cap) size where
  cap_pow := hcap
  size_pos := hsize
  size_dvd := hdvd
  wh_le := Nat.zero_le _
  wh_dvd := Nat.dvd_zero _
  wt_dvd := hdvd
  rh_dvd := Nat.dvd_zero _
  rt_dvd := Nat.dvd_zero _

/-- Offset of the copy of an enqueue that is accepted. -/
def enqueueOffset (self : RingBuffer) (size : UInt64) : Nat :=
  (ringBufferMask (ringBufferRewind self size) (ringBufferRewind self size).writer.head).toNat

/-- Offset of the copy of a dequeue that finds enough to read. -/
def dequeueOffset (self : RingBuffer) : Nat := (ringBufferMask self self.reader.head).toNat

theorem data_enqueue {self : RingBuffer} {data : List UInt8} {size : UInt64}
    (h : (ringBufferEnqueue self data size).2 = 0) :
    (ringBufferEnqueue self data size).1.data =
      writeAt self.data (enqueueOffset self size) (data.take size.toNat) := by
  rcases enqueue_cases self data size with ⟨_, heq⟩ | ⟨_, _, heq⟩ | ⟨_, _, heq⟩
  · simp [heq] at h
  · simp [heq] at h
  · rw [heq, data_accept, data_rewind, enqueueOffset]

theorem dequeue_eq_some {self : RingBuffer} {size : UInt64} {data : List UInt8}
    (h : (ringBufferDequeue self size).2 = some data) :
    data = readAt self.data (dequeueOffset self) size.toNat := by
  rcases dequeue_cases self size with ⟨_, heq⟩ | ⟨_, heq⟩
  · simp [heq] at h
  · simp only [heq, Option.some.injEq] at h
    exact h.symm

namespace Aligned

variable {buf : RingBuffer} {size : UInt64} (h : Aligned buf size)

include h

theorem size_le_cap : size.toNat ≤ buf.cap.toNat :=
  Nat.le_of_dvd h.cap_pow.pos h.size_dvd

theorem size_dvd_radix : size.toNat ∣ 2 ^ 64 :=
  h.size_dvd.trans h.cap_pow.dvd_radix

theorem writer_head_rewind :
    (ringBufferRewind buf size).writer.head.toNat =
      if buf.writer.head.toNat = buf.cap.toNat then 0 else buf.writer.head.toNat := by
  have hmod : (buf.writer.head % buf.cap).toNat =
      buf.writer.head.toNat % buf.cap.toNat := UInt64.toNat_mod _ _
  have hwh := h.wh_le
  have hpos := h.size_pos
  unfold ringBufferRewind
  split_ifs with hgt hend hend
  · rfl
  · have hlt : buf.writer.head.toNat % buf.cap.toNat < size.toNat := by
      rw [← hmod]
      exact UInt64.lt_iff_toNat_lt.mp hgt
    rw [Nat.mod_eq_of_lt (by omega)] at hlt
    exact (Nat.eq_zero_of_dvd_of_lt h.wh_dvd hlt).symm
  · have hle : size.toNat ≤ buf.writer.head.toNat % buf.cap.toNat := by
      rw [← hmod]
      exact UInt64.le_iff_toNat_le.mp (UInt64.not_lt.mp hgt)
    rw [hend, Nat.mod_self] at hle
    omega
  · rfl

/-- The head lies inside the buffer when an item is copied. -/
theorem writer_head_lt_rewind :
    (ringBufferRewind buf size).writer.head.toNat < buf.cap.toNat := by
  have hwh := h.wh_le
  have hpos := h.cap_pow.pos
  rw [h.writer_head_rewind]
  split <;> omega

theorem wh_dvd_rewind : size.toNat ∣ (ringBufferRewind buf size).writer.head.toNat := by
  rw [h.writer_head_rewind]
  split
  · exact Nat.dvd_zero _
  · exact h.wh_dvd

theorem rewind : Aligned (ringBufferRewind buf size) size where
  cap_pow := by simpa using h.cap_pow
  size_pos := h.size_pos
  size_dvd := by simpa using h.size_dvd
  wh_le := by simpa using h.writer_head_lt_rewind.le
  wh_dvd := h.wh_dvd_rewind
  wt_dvd := by simpa using h.wt_dvd
  rh_dvd := by simpa using h.rh_dvd
  rt_dvd := by simpa using h.rt_dvd

section Inside

variable (hlt : buf.writer.head.toNat < buf.cap.toNat)

include hlt

theorem head_add_le : buf.writer.head.toNat + size.toNat ≤ buf.cap.toNat :=
  add_le_of_dvd_of_lt h.wh_dvd h.size_dvd hlt

theorem toNat_head_add :
    (buf.writer.head + size).toNat = buf.writer.head.toNat + size.toNat := by
  have hle := h.head_add_le hlt
  have hcap := buf.cap.toNat_lt
  exact toNat_add_of_lt (by omega)

theorem accept (data : List UInt8) : Aligned (ringBufferAccept buf data size) size where
  cap_pow := by simpa using h.cap_pow
  size_pos := h.size_pos
  size_dvd := by simpa using h.size_dvd
  wh_le := by
    rw [writer_head_accept, cap_accept, h.toNat_head_add hlt]
    exact h.head_add_le hlt
  wh_dvd := by
    rw [writer_head_accept, h.toNat_head_add hlt]
    exact Nat.dvd_add h.wh_dvd (dvd_refl _)
  wt_dvd := by
    rw [writer_tail_accept]
    split
    · exact h.rh_dvd
    · exact h.wt_dvd
  rh_dvd := by simpa using h.rh_dvd
  rt_dvd := by
    rw [reader_accept]
    exact dvd_toNat_add h.size_dvd_radix h.rt_dvd (dvd_refl _)

end Inside

theorem enqueue (data : List UInt8) : Aligned (ringBufferEnqueue buf data size).1 size := by
  have hlt : (ringBufferRewind buf size).writer.head.toNat <
      (ringBufferRewind buf size).cap.toNat := by
    simpa using h.writer_head_lt_rewind
  rcases enqueue_cases buf data size with ⟨_, heq⟩ | ⟨_, _, heq⟩ | ⟨_, _, heq⟩
  · rw [heq]
    exact h
  · rw [heq]
    exact h.rewind
  · rw [heq]
    exact h.rewind.accept hlt data

theorem decrement : Aligned (ringBufferDecrement buf size) size where
  cap_pow := h.cap_pow
  size_pos := h.size_pos
  size_dvd := h.size_dvd
  wh_le := h.wh_le
  wh_dvd := h.wh_dvd
  wt_dvd := h.wt_dvd
  rh_dvd := dvd_toNat_add h.size_dvd_radix h.rh_dvd (dvd_refl _)
  rt_dvd := h.rt_dvd

theorem tryReset : Aligned (ringBufferTryReset buf) size := by
  unfold ringBufferTryReset
  split
  · exact ⟨h.cap_pow, h.size_pos, h.size_dvd, h.wh_le, h.wh_dvd, h.wt_dvd, h.wh_dvd, h.wh_dvd⟩
  · exact h

theorem dequeue : Aligned (ringBufferDequeue buf size).1 size := by
  rcases dequeue_cases buf size with ⟨_, heq⟩ | ⟨_, heq⟩
  · rw [heq]
    exact h
  · rw [heq]
    exact h.decrement.tryReset

theorem slot_of_mask {index : UInt64} (hindex : size.toNat ∣ index.toNat) :
    size.toNat ∣ (ringBufferMask buf index).toNat ∧
      (ringBufferMask buf index).toNat + size.toNat ≤ buf.cap.toNat := by
  have hdvd : size.toNat ∣ (ringBufferMask buf index).toNat := by
    rw [toNat_mask h.cap_pow]
    exact (Nat.dvd_mod_iff h.size_dvd).mpr hindex
  have hlt : (ringBufferMask buf index).toNat < buf.cap.toNat := by
    rw [toNat_mask h.cap_pow]
    exact Nat.mod_lt _ h.cap_pow.pos
  exact ⟨hdvd, add_le_of_dvd_of_lt hdvd h.size_dvd hlt⟩

theorem enqueueOffset_slot : size.toNat ∣ enqueueOffset buf size ∧
    enqueueOffset buf size + size.toNat ≤ buf.cap.toNat := by
  have hslot := h.rewind.slot_of_mask h.wh_dvd_rewind
  rwa [cap_rewind] at hslot

theorem dequeueOffset_slot : size.toNat ∣ dequeueOffset buf ∧
    dequeueOffset buf + size.toNat ≤ buf.cap.toNat :=
  h.slot_of_mask h.rh_dvd

end Aligned

end Doctrina.Deque
