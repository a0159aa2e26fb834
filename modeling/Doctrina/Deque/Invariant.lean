import Doctrina.Deque.Aligned
/-!
# The ring buffer under items of one size

`Inv buf size pending` describes every state that enqueues and dequeues of
`size`-byte items reach as long as no enqueue is accepted by a full buffer;
`pending` are the items stored and not yet read, oldest first.  Below, `wh`,
`wt`, `rh` and `rt` are the writer's and the reader's head and tail.
-/

namespace Doctrina.Deque

open Doctrina.Lib.Ring Doctrina.Lib.Word64

/-- Bytes the writer may store before it meets its tail, when the tail lies
inside the buffer: up to the end and then from offset 0, or straight on. -/
def allowance (cap head tail : Nat) : Nat :=
  if tail < head then cap - head + tail else tail - head

/-- When the tail is the reader's position, what the writer may store and what
is unread fill the buffer. -/
theorem unread_add_allowance {cap head tail unread : Nat} (hhead : 0 < head)
    (hheadle : head ≤ cap) (htail : tail ≤ cap) (hunread : 0 < unread)
    (hunreadle : unread ≤ cap) (hmod : tail + unread ≡ head [MOD cap]) :
    unread + allowance cap head tail ≤ cap := by
  unfold allowance
  split
  · have heq : tail + unread = head := by
      apply hmod.eq_of_abs_lt
      rw [abs_lt]
      omega
    omega
  · have hmod' : tail + unread ≡ head + cap [MOD cap] :=
      hmod.trans (Nat.add_modEq_right).symm
    have heq : tail + unread = head + cap := by
      apply hmod'.eq_of_abs_lt
      rw [abs_lt]
      push_cast
      omega
    omega

theorem allowance_add {cap head tail size : Nat} (hcap : head + size ≤ cap)
    (hne : head ≠ tail) (htail : head < tail → head + size ≤ tail) :
    allowance cap (head + size) tail + size = allowance cap head tail := by
  unfold allowance
  split <;> split <;> omega

structure Inv (buf : RingBuffer) (size : UInt64) (pending : List (List UInt8)) :
    Prop where
  cap_pow : IsPow2 buf.cap
  size_pos : 0 < size.toNat
  size_dvd : size.toNat ∣ buf.cap.toNat
  wh_le : buf.writer.head.toNat ≤ buf.cap.toNat
  wh_dvd : size.toNat ∣ buf.writer.head.toNat
  wt_dvd : size.toNat ∣ buf.writer.tail.toNat
  rh_dvd : size.toNat ∣ buf.reader.head.toNat
  unread : (ringBufferReaderCapacity buf).toNat = pending.length * size.toNat
  unread_le : pending.length * size.toNat ≤ buf.cap.toNat
  sync : buf.reader.tail.toNat ≡ buf.writer.head.toNat [MOD buf.cap.toNat]
  room : buf.writer.tail.toNat ≤ buf.cap.toNat →
    pending.length * size.toNat +
      allowance buf.cap.toNat buf.writer.head.toNat buf.writer.tail.toNat ≤
        buf.cap.toNat
  holds : Holds buf.data buf.cap.toNat size.toNat buf.reader.head.toNat pending

theorem inv_create {cap size : UInt64} (hcap : IsPow2 cap) (hsize : 0 < size.toNat)
    (hdvd : size.toNat ∣ cap.toNat) : Inv (ringBufferCreate cap) size [] where
  cap_pow := hcap
  size_pos := hsize
  size_dvd := hdvd
  wh_le := Nat.zero_le _
  wh_dvd := Nat.dvd_zero _
  wt_dvd := hdvd
  rh_dvd := Nat.dvd_zero _
  unread := by simp [ringBufferCreate, ringBufferReaderCapacity]
  unread_le := by simp
  sync := Nat.ModEq.refl _
  room := by
    intro _
    simp [ringBufferCreate, allowance]
  holds := holds_nil _ _ _ _

/-- The writer cannot move: its head has met its tail, or it stands at the end
of the buffer with the tail at the beginning. -/
def WriterBlocked (buf : RingBuffer) : Prop :=
  buf.writer.head = buf.writer.tail ∨ buf.writer.head = buf.cap ∧ buf.writer.tail = 0

instance (buf : RingBuffer) : Decidable (WriterBlocked buf) :=
  inferInstanceAs (Decidable (_ ∨ _))

def Full (buf : RingBuffer) : Prop := ringBufferReaderCapacity buf = buf.cap

instance (buf : RingBuffer) : Decidable (Full buf) :=
  inferInstanceAs (Decidable (_ = _))

namespace Inv

variable {buf : RingBuffer} {size : UInt64} {pending : List (List UInt8)}

theorem aligned (h : Inv buf size pending) : Aligned buf size where
  cap_pow := h.cap_pow
  size_pos := h.size_pos
  size_dvd := h.size_dvd
  wh_le := h.wh_le
  wh_dvd := h.wh_dvd
  wt_dvd := h.wt_dvd
  rh_dvd := h.rh_dvd
  rt_dvd := by
    have hunread : (buf.reader.tail - buf.reader.head).toNat =
        pending.length * size.toNat := h.unread
    have hmod := toNat_modEq_add_sub (h.size_dvd.trans h.cap_pow.dvd_radix)
      buf.reader.tail buf.reader.head
    rw [hunread] at hmod
    exact (hmod.dvd_iff (dvd_refl _)).mpr (Nat.dvd_add h.rh_dvd (Nat.dvd_mul_left _ _))

theorem writer_slot (h : Inv buf size pending) :
    buf.writer.head.toNat % buf.cap.toNat =
      slot buf.cap.toNat size.toNat buf.reader.head.toNat pending.length := by
  have hmod := toNat_modEq_add_sub h.cap_pow.dvd_radix buf.reader.tail buf.reader.head
  have hunread : (buf.reader.tail - buf.reader.head).toNat =
      pending.length * size.toNat := h.unread
  rw [hunread] at hmod
  exact h.sync.symm.trans hmod

theorem rewind (h : Inv buf size pending)
    (hroom : size ≤ ringBufferWriterCapacity buf) :
    Inv (ringBufferRewind buf size) size pending := by
  have hhead := h.aligned.writer_head_rewind
  have hnext := h.aligned.rewind
  have hpos := h.size_pos
  refine ⟨hnext.cap_pow, hpos, hnext.size_dvd, hnext.wh_le, hnext.wh_dvd, hnext.wt_dvd,
    hnext.rh_dvd, by simpa [ringBufferReaderCapacity] using h.unread,
    by simpa using h.unread_le, ?_, ?_, by simpa using h.holds⟩
  · rw [hhead, cap_rewind, reader_rewind]
    split
    · rename_i hend
      have hsync := h.sync
      rw [hend] at hsync
      exact hsync.trans (Nat.modEq_zero_iff_dvd.mpr (dvd_refl _))
    · exact h.sync
  · rw [hhead, cap_rewind, writer_tail_rewind]
    intro hle
    have hold := h.room hle
    split
    · rename_i hend
      have hne : buf.writer.tail.toNat ≠ buf.writer.head.toNat := by
        intro heq
        have hzero : ringBufferWriterCapacity buf = 0 := by
          rw [ringBufferWriterCapacity, UInt64.toNat_inj.mp heq]
          exact UInt64.sub_self _
        rw [hzero, UInt64.le_iff_toNat_le] at hroom
        simp only [UInt64.toNat_zero] at hroom
        omega
      unfold allowance at hold ⊢
      split at hold <;> split <;> omega
    · exact hold

theorem size_le_writerCapacity_iff (h : Inv buf size pending) :
    size ≤ ringBufferWriterCapacity buf ↔
      buf.writer.head.toNat ≠ buf.writer.tail.toNat := by
  have hsize := h.aligned.size_le_cap
  have hpos := h.size_pos
  have htwo := h.cap_pow.two_mul_le
  have hwh := h.wh_le
  rw [UInt64.le_iff_toNat_le, ringBufferWriterCapacity]
  rcases Nat.lt_trichotomy buf.writer.tail.toNat buf.writer.head.toNat with
    hlt | heq | hgt
  · rw [toNat_sub_of_lt hlt]
    omega
  · rw [toNat_sub_of_le heq.ge]
    omega
  · have hitem := add_le_of_dvd_of_lt h.wh_dvd h.wt_dvd hgt
    rw [toNat_sub_of_le hgt.le]
    omega

theorem unread_add_le (h : Inv buf size pending)
    (hfull : pending.length * size.toNat ≠ buf.cap.toNat) :
    pending.length * size.toNat + size.toNat ≤ buf.cap.toNat := by
  have hlt := Nat.lt_of_le_of_ne h.unread_le hfull
  exact add_le_of_dvd_of_lt (Nat.dvd_mul_left size.toNat pending.length) h.size_dvd hlt

/-- Below a tail inside the buffer the writer only meets free bytes. -/
theorem not_full_of_tail_le (h : Inv buf size pending)
    (hroom : size ≤ ringBufferWriterCapacity buf)
    (hlt : buf.writer.head.toNat < buf.cap.toNat)
    (htail : buf.writer.tail.toNat ≤ buf.cap.toNat) :
    pending.length * size.toNat ≠ buf.cap.toNat := by
  have hne := h.size_le_writerCapacity_iff.mp hroom
  have hold := h.room htail
  unfold allowance at hold
  split at hold <;> omega

section Accept

variable (h : Inv buf size pending) (hlt : buf.writer.head.toNat < buf.cap.toNat)
  (hfull : pending.length * size.toNat ≠ buf.cap.toNat)

include h in
theorem unread_add (hword : pending.length * size.toNat + size.toNat < 2 ^ 64) :
    (buf.reader.tail + size - buf.reader.head).toNat =
      pending.length * size.toNat + size.toNat := by
  have hold : (buf.reader.tail - buf.reader.head).toNat = _ := h.unread
  rw [toNat_add_sub (by omega), hold]

include h in
theorem sync_add : (buf.reader.tail + size).toNat ≡
    (buf.writer.head + size).toNat [MOD buf.cap.toNat] := by
  have hdvd := h.cap_pow.dvd_radix
  calc (buf.reader.tail + size).toNat
      ≡ buf.reader.tail.toNat + size.toNat [MOD buf.cap.toNat] :=
        toNat_add_modEq hdvd _ _
    _ ≡ buf.writer.head.toNat + size.toNat [MOD buf.cap.toNat] :=
        h.sync.add_right _
    _ ≡ (buf.writer.head + size).toNat [MOD buf.cap.toNat] :=
        (toNat_add_modEq hdvd _ _).symm

include h hlt hfull in
theorem room_of_met (hle : buf.reader.head.toNat ≤ buf.cap.toNat) :
    pending.length * size.toNat + size.toNat +
      allowance buf.cap.toNat (buf.writer.head.toNat + size.toNat) buf.reader.head.toNat ≤
        buf.cap.toNat := by
  have hpos := h.size_pos
  have hfit := h.unread_add_le hfull
  have hcap := buf.cap.toNat_lt
  have hmod : buf.reader.head.toNat + (pending.length * size.toNat + size.toNat) ≡
      buf.writer.head.toNat + size.toNat [MOD buf.cap.toNat] := by
    have hsub := toNat_modEq_add_sub h.cap_pow.dvd_radix
      (buf.reader.tail + size) buf.reader.head
    rw [h.unread_add (by omega)] at hsub
    rw [← h.aligned.toNat_head_add hlt]
    exact hsub.symm.trans h.sync_add
  exact unread_add_allowance (by omega) (h.aligned.head_add_le hlt) hle (by omega) hfit hmod

include h hlt in
theorem room_of_not_met (hroom : size ≤ ringBufferWriterCapacity buf)
    (hle : buf.writer.tail.toNat ≤ buf.cap.toNat) :
    pending.length * size.toNat + size.toNat +
      allowance buf.cap.toNat (buf.writer.head.toNat + size.toNat) buf.writer.tail.toNat ≤
        buf.cap.toNat := by
  have hold := h.room hle
  have hstep := allowance_add (h.aligned.head_add_le hlt) (h.size_le_writerCapacity_iff.mp hroom)
    (add_le_of_dvd_of_lt h.wh_dvd h.wt_dvd)
  omega

include h hlt hfull in
theorem accept {item : List UInt8} (hitem : item.length = size.toNat)
    (hroom : size ≤ ringBufferWriterCapacity buf) :
    Inv (ringBufferAccept buf item size) size (pending ++ [item]) := by
  have hlen : (pending ++ [item]).length * size.toNat =
      pending.length * size.toNat + size.toNat := by
    rw [List.length_append, List.length_singleton, Nat.add_mul, Nat.one_mul]
  have hpos := h.size_pos
  have hhead := h.aligned.toNat_head_add hlt
  have hnext := h.aligned.accept hlt item
  have hfit := h.unread_add_le hfull
  have hcap := buf.cap.toNat_lt
  refine ⟨hnext.cap_pow, hpos, hnext.size_dvd, hnext.wh_le, hnext.wh_dvd, hnext.wt_dvd,
    hnext.rh_dvd, ?_, ?_, ?_, ?_, ?_⟩
  · rw [hlen, ringBufferReaderCapacity, reader_accept]
    exact h.unread_add (by omega)
  · rw [hlen, cap_accept]
    exact hfit
  · rw [reader_accept, writer_head_accept, cap_accept]
    exact h.sync_add
  · rw [hlen, writer_tail_accept, cap_accept, writer_head_accept, hhead]
    split
    · exact h.room_of_met hlt hfull
    · exact h.room_of_not_met hlt hroom
  · have hoff : (ringBufferMask buf buf.writer.head).toNat =
        slot buf.cap.toNat size.toNat buf.reader.head.toNat pending.length := by
      rw [toNat_mask h.cap_pow, h.writer_slot]
    rw [data_accept, cap_accept, reader_accept, List.take_of_length_le hitem.le]
    exact h.holds.push h.size_dvd h.rh_dvd hitem (by omega) hoff

end Accept

theorem enqueue_accepted (h : Inv buf size pending) {item : List UInt8}
    (hitem : item.length = size.toNat)
    (hfull : buf.cap.toNat < buf.writer.tail.toNat →
      pending.length * size.toNat ≠ buf.cap.toNat)
    (hroom : size ≤ ringBufferWriterCapacity buf)
    (hroom' : size ≤ ringBufferWriterCapacity (ringBufferRewind buf size)) :
    Inv (ringBufferAccept (ringBufferRewind buf size) item size) size
      (pending ++ [item]) := by
  have hrewind := h.rewind hroom
  have hlt : (ringBufferRewind buf size).writer.head.toNat <
      (ringBufferRewind buf size).cap.toNat := by
    simpa using h.aligned.writer_head_lt_rewind
  refine hrewind.accept hlt ?_ hitem hroom'
  rcases Nat.lt_or_ge buf.cap.toNat buf.writer.tail.toNat with hgt | hle
  · simpa using hfull hgt
  · exact hrewind.not_full_of_tail_le hroom' hlt (by simpa using hle)

theorem enqueue (h : Inv buf size pending) {item : List UInt8}
    (hitem : item.length = size.toNat)
    (hfull : buf.cap.toNat < buf.writer.tail.toNat →
      pending.length * size.toNat ≠ buf.cap.toNat) :
    ((ringBufferEnqueue buf item size).2 = -1 ∧
      Inv (ringBufferEnqueue buf item size).1 size pending) ∨
    ((ringBufferEnqueue buf item size).2 = 0 ∧
      Inv (ringBufferEnqueue buf item size).1 size (pending ++ [item])) := by
  rcases enqueue_cases buf item size with
    ⟨_, heq⟩ | ⟨hroom, _, heq⟩ | ⟨hroom, hroom', heq⟩
  · left
    rw [heq]
    exact ⟨rfl, h⟩
  · left
    rw [heq]
    exact ⟨rfl, h.rewind hroom⟩
  · right
    rw [heq]
    exact ⟨rfl, h.enqueue_accepted hitem hfull hroom hroom'⟩

theorem dequeue_nil (h : Inv buf size []) :
    ringBufferDequeue buf size = (buf, none) := by
  rcases dequeue_cases buf size with ⟨_, heq⟩ | ⟨hle, _⟩
  · exact heq
  · have hunread := h.unread
    have hpos := h.size_pos
    rw [UInt64.le_iff_toNat_le, hunread] at hle
    simp only [List.length_nil, Nat.zero_mul] at hle
    omega

theorem full_iff (h : Inv buf size pending) :
    Full buf ↔ pending.length * size.toNat = buf.cap.toNat := by
  rw [← h.unread]
  exact UInt64.toNat_inj.symm

theorem enqueue_eq_zero_iff (h : Inv buf size pending) (item : List UInt8) :
    (ringBufferEnqueue buf item size).2 = 0 ↔ ¬WriterBlocked buf := by
  have hhead := h.aligned.writer_head_rewind
  have hwh := h.wh_le
  have hpos := h.cap_pow.pos
  have hblocked : WriterBlocked buf ↔
      buf.writer.head.toNat = buf.writer.tail.toNat ∨
        buf.writer.head.toNat = buf.cap.toNat ∧ buf.writer.tail.toNat = 0 := by
    simp only [WriterBlocked, ← UInt64.toNat_inj, UInt64.toNat_zero]
  have hfirst := h.size_le_writerCapacity_iff
  rw [hblocked]
  rcases enqueue_cases buf item size with
    ⟨hlt, heq⟩ | ⟨hroom, hlt, heq⟩ | ⟨hroom, hroom', heq⟩
  · have hmet : buf.writer.head.toNat = buf.writer.tail.toNat := by
      by_contra hne
      exact absurd (hfirst.mpr hne) (UInt64.not_le.mpr hlt)
    simp [heq, hmet]
  · have hsecond := (h.rewind hroom).size_le_writerCapacity_iff
    rw [hhead, writer_tail_rewind] at hsecond
    have hmet : (if buf.writer.head.toNat = buf.cap.toNat then 0
        else buf.writer.head.toNat) = buf.writer.tail.toNat := by
      by_contra hne
      exact absurd (hsecond.mpr hne) (UInt64.not_le.mpr hlt)
    have hne := hfirst.mp hroom
    rw [heq]
    split at hmet
    · rename_i hend
      simp [hend, ← hmet]
    · exact absurd hmet hne
  · have hsecond := (h.rewind hroom).size_le_writerCapacity_iff.mp hroom'
    rw [hhead, writer_tail_rewind] at hsecond
    have hne := hfirst.mp hroom
    rw [heq]
    split at hsecond <;> simp <;> omega

/-- A full buffer blocks its writer, unless the tail has run past the end. -/
theorem writerBlocked_of_full (h : Inv buf size pending) (hfull : Full buf)
    (htail : ¬buf.cap < buf.writer.tail) : WriterBlocked buf := by
  have hle : buf.writer.tail.toNat ≤ buf.cap.toNat :=
    UInt64.le_iff_toNat_le.mp (UInt64.not_lt.mp htail)
  have hroom := h.room hle
  have hwh := h.wh_le
  rw [h.full_iff.mp hfull] at hroom
  unfold allowance at hroom
  simp only [WriterBlocked, ← UInt64.toNat_inj, UInt64.toNat_zero]
  split at hroom <;> omega

theorem not_writerBlocked (h : Inv buf size pending)
    (htail : buf.cap < buf.writer.tail) : ¬WriterBlocked buf := by
  have hlt := UInt64.lt_iff_toNat_lt.mp htail
  have hwh := h.wh_le
  simp only [WriterBlocked, ← UInt64.toNat_inj, UInt64.toNat_zero]
  omega

theorem decrement {item : List UInt8} (h : Inv buf size (item :: pending)) :
    Inv (ringBufferDecrement buf size) size pending := by
  have hlen : (item :: pending).length * size.toNat =
      pending.length * size.toNat + size.toNat := by
    rw [List.length_cons, Nat.add_mul, Nat.one_mul]
  have hunread : (buf.reader.tail - buf.reader.head).toNat =
      pending.length * size.toNat + size.toNat := h.unread.trans hlen
  have hle := h.unread_le
  have hle' : pending.length * size.toNat ≤ buf.cap.toNat := by omega
  have hstart : buf.reader.head.toNat + size.toNat ≡
      (buf.reader.head + size).toNat [MOD buf.cap.toNat] :=
    (toNat_add_modEq h.cap_pow.dvd_radix _ _).symm
  have hnext := h.aligned.decrement
  refine ⟨h.cap_pow, h.size_pos, h.size_dvd, h.wh_le, h.wh_dvd, h.wt_dvd, hnext.rh_dvd, ?_,
    hle', h.sync, ?_, h.holds.tail.congr_start hstart⟩
  · change (buf.reader.tail - (buf.reader.head + size)).toNat = _
    rw [toNat_sub_add (by omega), hunread]
    omega
  · intro htail
    have hroom := h.room htail
    change pending.length * size.toNat +
      allowance buf.cap.toNat buf.writer.head.toNat buf.writer.tail.toNat ≤
        buf.cap.toNat
    omega

theorem tryReset (h : Inv buf size pending) :
    Inv (ringBufferTryReset buf) size pending := by
  unfold ringBufferTryReset
  split
  · rename_i heq
    have hzero : (ringBufferReaderCapacity buf).toNat = 0 := toNat_sub_eq_zero.mpr heq
    have hpending : pending = [] := by
      rw [h.unread] at hzero
      rcases Nat.mul_eq_zero.mp hzero with hlen | hsize
      · exact List.length_eq_zero_iff.mp hlen
      · exact absurd h.size_pos (by omega)
    subst hpending
    exact ⟨h.cap_pow, h.size_pos, h.size_dvd, h.wh_le, h.wh_dvd, h.wt_dvd, h.wh_dvd,
      by simp [ringBufferReaderCapacity], h.unread_le, Nat.ModEq.refl _, h.room,
      holds_nil _ _ _ _⟩
  · exact h

theorem dequeue_cons {item : List UInt8} (h : Inv buf size (item :: pending)) :
    (ringBufferDequeue buf size).2 = some item ∧
      Inv (ringBufferDequeue buf size).1 size pending := by
  rcases dequeue_cases buf size with ⟨hlt, _⟩ | ⟨_, heq⟩
  · rw [UInt64.lt_iff_toNat_lt, h.unread, List.length_cons, Nat.add_mul] at hlt
    omega
  · rw [heq, toNat_mask h.cap_pow, h.holds.head]
    exact ⟨rfl, h.decrement.tryReset⟩

/-- What an overrun does: the enqueue is accepted, and the next dequeue returns
its item in place of the oldest one. -/
theorem overrun_loses_oldest {oldest item : List UInt8}
    (h : Inv buf size (oldest :: pending)) (hitem : item.length = size.toNat)
    (hfull : Full buf) (htail : buf.cap < buf.writer.tail) :
    (ringBufferEnqueue buf item size).2 = 0 ∧
      (ringBufferDequeue (ringBufferEnqueue buf item size).1 size).2 = some item := by
  have hzero := (h.enqueue_eq_zero_iff item).mpr (h.not_writerBlocked htail)
  refine ⟨hzero, ?_⟩
  rcases enqueue_cases buf item size with ⟨_, heq⟩ | ⟨_, _, heq⟩ | ⟨hroom, hroom', heq⟩
  · simp [heq] at hzero
  · simp [heq] at hzero
  have hrewind := h.rewind hroom
  have hlen := h.full_iff.mp hfull
  have hsum : buf.cap.toNat + size.toNat < 2 ^ 64 := by
    have hlt := UInt64.lt_iff_toNat_lt.mp htail
    have hle := add_le_of_dvd_of_lt h.size_dvd h.wt_dvd hlt
    have hword := buf.writer.tail.toNat_lt
    omega
  have hunread : (buf.reader.tail + size - buf.reader.head).toNat =
      buf.cap.toNat + size.toNat := by
    rw [h.unread_add (by omega), hlen]
  have hoff : buf.reader.head.toNat % buf.cap.toNat =
      (ringBufferRewind buf size).writer.head.toNat % buf.cap.toNat := by
    have hslot := hrewind.writer_slot
    rw [cap_rewind, reader_rewind] at hslot
    rw [hslot, slot, hlen, Nat.add_mod_right]
  rw [heq]
  rcases dequeue_cases (ringBufferAccept (ringBufferRewind buf size) item size) size with
    ⟨hlt, _⟩ | ⟨_, hdeq⟩
  · rw [UInt64.lt_iff_toNat_lt] at hlt
    simp only [ringBufferReaderCapacity, reader_accept, reader_rewind, hunread] at hlt
    omega
  · have hread := readAt_writeAt_same buf.data
      (buf.reader.head.toNat % buf.cap.toNat) item
    rw [hitem] at hread
    have hmask : (ringBufferMask (ringBufferAccept (ringBufferRewind buf size) item size)
        (ringBufferAccept (ringBufferRewind buf size) item size).reader.head).toNat =
        buf.reader.head.toNat % buf.cap.toNat := by
      rw [toNat_mask (by simpa using h.cap_pow)]
      simp
    rw [hdeq, hmask, data_accept, toNat_mask hrewind.cap_pow, cap_rewind, data_rewind,
      ← hoff, List.take_of_length_le hitem.le, hread]

end Inv

end Doctrina.Deque
