import Doctrina.Deque.Runs
/-!
# What a refused enqueue leaves behind

`enqueue` tests the writer's capacity before and after it may set the writer's
head to 0.  A call that passes the first test and fails the second one returns
-1 with the head moved.  Sizes and capacities are arbitrary here.
-/

namespace Doctrina.Deque

open Doctrina.Lib.Execution

/-- The first capacity test passes, the head goes back from a position other
than 0, and the second test fails. -/
def LosesHead (self : RingBuffer) (size : UInt64) : Prop :=
  size ≤ ringBufferWriterCapacity self ∧ self.writer.head % self.cap < size ∧
    self.writer.head ≠ 0 ∧ self.writer.tail < size

instance (self : RingBuffer) (size : UInt64) : Decidable (LosesHead self size) :=
  inferInstanceAs (Decidable (_ ∧ _))

section Rewind

variable {self : RingBuffer} {size : UInt64}

theorem writerCapacity_rewind_of_lt (h : self.writer.head % self.cap < size) :
    ringBufferWriterCapacity (ringBufferRewind self size) = self.writer.tail := by
  rw [rewind_of_lt h, ringBufferWriterCapacity]
  exact UInt64.sub_zero _

/-- The second test can only turn down what the first one let through if the
head moved in between. -/
theorem losesHead_iff : LosesHead self size ↔
    size ≤ ringBufferWriterCapacity self ∧
      ringBufferWriterCapacity (ringBufferRewind self size) < size := by
  constructor
  · intro h
    obtain ⟨hfirst, hgoes, _, htail⟩ := h
    exact ⟨hfirst, by rwa [writerCapacity_rewind_of_lt hgoes]⟩
  · intro h
    obtain ⟨hfirst, hsecond⟩ := h
    by_cases hgoes : self.writer.head % self.cap < size
    · refine ⟨hfirst, hgoes, ?_, by rwa [writerCapacity_rewind_of_lt hgoes] at hsecond⟩
      intro hzero
      rw [writerCapacity_rewind_of_lt hgoes] at hsecond
      rw [ringBufferWriterCapacity, hzero, UInt64.sub_zero] at hfirst
      exact UInt64.not_lt.mpr hfirst hsecond
    · rw [rewind_of_le (UInt64.not_lt.mp hgoes)] at hsecond
      exact absurd hsecond (UInt64.not_lt.mpr hfirst)

theorem enqueue_unchanged_iff (data : List UInt8) :
    ((ringBufferEnqueue self data size).2 = -1 →
        (ringBufferEnqueue self data size).1 = self) ↔ ¬LosesHead self size := by
  rw [losesHead_iff]
  rcases enqueue_cases self data size with ⟨hlt, h⟩ | ⟨hle, hlt, h⟩ | ⟨_, hle, h⟩
  · simp [h, UInt64.not_le.mpr hlt]
  · have hmoved : ringBufferRewind self size ≠ self := by
      intro heq
      rw [heq] at hlt
      exact UInt64.not_lt.mpr hle hlt
    simp [h, hle, hlt, hmoved]
  · simp [h, UInt64.not_lt.mpr hle]

end Rewind

/-- A refused enqueue leaves the buffer, the size it reports and everything a
later run returns as they would be without the call. -/
def Traceless (log : Log) : Op → Prop
  | .enqueue item =>
      (ringBufferEnqueue log.buffer item (.ofNat item.length)).2 = -1 →
        (log.step (.enqueue item)).buffer = log.buffer ∧
          ringBufferSize (log.step (.enqueue item)).buffer = ringBufferSize log.buffer ∧
          ∀ later : List Op,
            later.foldl Log.step (log.step (.enqueue item)) = later.foldl Log.step log
  | .dequeue _ => True

/-- No enqueue is made whose refusal loses the head. -/
def KeepsHead (log : Log) : Op → Prop
  | .enqueue item => ¬LosesHead log.buffer (.ofNat item.length)
  | .dequeue _ => True

instance (log : Log) : DecidablePred (KeepsHead log)
  | .enqueue _ => inferInstanceAs (Decidable (¬_))
  | .dequeue _ => inferInstanceAs (Decidable True)

theorem Log.step_of_refused {log : Log} {item : List UInt8}
    (hcode : (ringBufferEnqueue log.buffer item (.ofNat item.length)).2 = -1)
    (hbuffer : (ringBufferEnqueue log.buffer item (.ofNat item.length)).1 = log.buffer) :
    log.step (.enqueue item) = log := by
  simp [Log.step, hcode, hbuffer]

theorem traceless_iff_keepsHead (log : Log) (op : Op) :
    Traceless log op ↔ KeepsHead log op := by
  cases op with
  | dequeue n => exact Iff.rfl
  | enqueue item =>
      rw [KeepsHead, ← enqueue_unchanged_iff item]
      constructor
      · intro h hcode
        exact (h hcode).1
      · intro h hcode
        rw [Log.step_of_refused hcode (h hcode)]
        exact ⟨rfl, rfl, fun _ => rfl⟩

/-- In a run of enqueues and dequeues of any sizes the refused enqueues change
nothing if and only if none of them loses the head. -/
theorem refusals_traceless_iff (cap : UInt64) (ops : List Op) :
    Along Log.step Traceless (Log.start cap) ops ↔
      Along Log.step KeepsHead (Log.start cap) ops := by
  have himp : ∀ log op, KeepsHead log op → Traceless log op := fun log op h =>
    (traceless_iff_keepsHead log op).mpr h
  have himp' : ∀ log op, Traceless log op → KeepsHead log op := fun log op h =>
    (traceless_iff_keepsHead log op).mp h
  exact ⟨along_imp himp', along_imp himp⟩

/-- The second of two enqueues into one byte moves the head from 1 back to 0. -/
theorem refusal_loses_head :
    ¬∀ (cap : UInt64) (ops : List Op), 1 ≤ cap →
      Along Log.step Traceless (Log.start cap) ops := by
  intro h
  have hrun := h 1 [.enqueue [1], .enqueue [2]] (by decide)
  have hkeeps := (traceless_iff_keepsHead _ _).mp hrun.2.1
  revert hkeeps
  decide +kernel

end Doctrina.Deque
