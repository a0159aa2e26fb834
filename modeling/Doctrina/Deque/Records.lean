import Doctrina.Deque.Runs
/-!
# Records of different sizes

Each dequeue asks for the size of the oldest record.  The reader's position
then follows the writer's as long as the writer goes back to offset 0 only
from the end of the buffer, and the copies stay inside the buffer as long as,
besides, no record is let through by a tail that does not bound the writer.
-/

namespace Doctrina.Deque

open Doctrina.Lib.Execution Doctrina.Lib.Ring Doctrina.Lib.Word64

/-- The oldest accepted record that no dequeue has returned. -/
def Log.oldest (log : Log) : Option (List UInt8) := log.accepted[log.returned.length]?

/-- A record is not empty and its length is a word; a dequeue asks for the
length of the oldest record. -/
def Asks (log : Log) : Op → Prop
  | .enqueue item => 0 < item.length ∧ item.length < 2 ^ 64
  | .dequeue size => log.oldest.map List.length = some size.toNat

instance (log : Log) : DecidablePred (Asks log)
  | .enqueue _ => inferInstanceAs (Decidable (_ ∧ _))
  | .dequeue _ => inferInstanceAs (Decidable (_ = _))

/-- An enqueue that returns 0 writes, and a dequeue that returns bytes reads,
only below `cap`. -/
def InBounds (log : Log) : Op → Prop
  | .enqueue item =>
      (ringBufferEnqueue log.buffer item (.ofNat item.length)).2 = 0 →
        (ringBufferMask log.buffer
          (ringBufferRewind log.buffer (.ofNat item.length)).writer.head).toNat +
            item.length ≤ log.buffer.cap.toNat
  | .dequeue size =>
      (ringBufferDequeue log.buffer size).2 ≠ none →
        (ringBufferMask log.buffer log.buffer.reader.head).toNat + size.toNat ≤
          log.buffer.cap.toNat

instance (log : Log) : DecidablePred (InBounds log)
  | .enqueue _ => inferInstanceAs (Decidable (_ → _))
  | .dequeue _ => inferInstanceAs (Decidable (_ → _))

/-! ## The states in which an enqueue goes wrong -/

/-- The first capacity test passes and the head goes back to 0 although it is
not at the end of the buffer. -/
def RewindsInside (self : RingBuffer) (size : UInt64) : Prop :=
  size ≤ ringBufferWriterCapacity self ∧ self.writer.head % self.cap ≠ 0 ∧
    self.writer.head % self.cap < size

instance (self : RingBuffer) (size : UInt64) : Decidable (RewindsInside self size) :=
  inferInstanceAs (Decidable (_ ∧ _))

def Passes (self : RingBuffer) (size : UInt64) : Prop :=
  size ≤ ringBufferWriterCapacity self ∧
    size ≤ ringBufferWriterCapacity (ringBufferRewind self size)

instance (self : RingBuffer) (size : UInt64) : Decidable (Passes self size) :=
  inferInstanceAs (Decidable (_ ∧ _))

/-- A tail below the head or past the end lets a record through that is longer
than the rest of the buffer. -/
def Overshoots (self : RingBuffer) (size : UInt64) : Prop :=
  Passes self size ∧ (self.writer.tail < self.writer.head ∨ self.cap < self.writer.tail) ∧
    self.cap.toNat < (self.writer.head % self.cap).toNat + size.toNat

instance (self : RingBuffer) (size : UInt64) : Decidable (Overshoots self size) :=
  inferInstanceAs (Decidable (_ ∧ _))

/-- The record lets the count of unread bytes wrap. -/
def Overcounts (self : RingBuffer) (size : UInt64) : Prop :=
  Passes self size ∧ 2 ^ 64 ≤ (ringBufferReaderCapacity self).toNat + size.toNat

instance (self : RingBuffer) (size : UInt64) : Decidable (Overcounts self size) :=
  inferInstanceAs (Decidable (_ ∧ _))

def Bounded (log : Log) : Op → Prop
  | .enqueue item =>
      ¬RewindsInside log.buffer (.ofNat item.length) ∧
        ¬Overshoots log.buffer (.ofNat item.length) ∧
        ¬Overcounts log.buffer (.ofNat item.length)
  | .dequeue _ => True

instance (log : Log) : DecidablePred (Bounded log)
  | .enqueue _ => inferInstanceAs (Decidable (_ ∧ _))
  | .dequeue _ => inferInstanceAs (Decidable True)

/-! ## The invariant -/

/-- The reader follows the writer, and the unread records lie behind one
another from the reader's head on, none of them across the end. -/
structure Synced (buf : RingBuffer) (pending : List (List UInt8)) : Prop where
  cap_pow : IsPow2 buf.cap
  wh_le : buf.writer.head.toNat ≤ buf.cap.toNat
  sync : buf.reader.tail.toNat ≡ buf.writer.head.toNat [MOD buf.cap.toNat]
  unread : (ringBufferReaderCapacity buf).toNat = pending.flatten.length
  nonempty : ∀ item ∈ pending, 0 < item.length
  unbroken : Unbroken buf.cap.toNat buf.reader.head.toNat pending

theorem synced_create {cap : UInt64} (hcap : IsPow2 cap) : Synced (ringBufferCreate cap) [] where
  cap_pow := hcap
  wh_le := Nat.zero_le _
  sync := Nat.ModEq.refl _
  unread := by simp [ringBufferCreate, ringBufferReaderCapacity]
  nonempty := by simp
  unbroken := trivial

namespace Synced

variable {buf : RingBuffer} {size : UInt64} {pending : List (List UInt8)}

theorem toNat_head_mod (buf : RingBuffer) :
    (buf.writer.head % buf.cap).toNat = buf.writer.head.toNat % buf.cap.toNat :=
  UInt64.toNat_mod _ _

theorem writer_head_rewind (h : Synced buf pending) (hsize : 0 < size.toNat)
    (hroom : size ≤ ringBufferWriterCapacity buf) (hinside : ¬RewindsInside buf size) :
    (ringBufferRewind buf size).writer.head.toNat =
      buf.writer.head.toNat % buf.cap.toNat := by
  have hmod := toNat_head_mod buf
  by_cases hgoes : buf.writer.head % buf.cap < size
  · have hzero : buf.writer.head % buf.cap = 0 := by
      by_contra hne
      exact hinside ⟨hroom, hne, hgoes⟩
    rw [hzero] at hmod
    rw [rewind_of_lt hgoes]
    exact hmod
  · have hle := UInt64.not_lt.mp hgoes
    have hle' := UInt64.le_iff_toNat_le.mp hle
    have hwh := h.wh_le
    rw [rewind_of_le hle]
    rw [hmod] at hle'
    by_cases hend : buf.writer.head.toNat = buf.cap.toNat
    · rw [hend, Nat.mod_self] at hle'
      omega
    · exact (Nat.mod_eq_of_lt (by omega)).symm

theorem head_add_le (h : Synced buf pending) (hsize : 0 < size.toNat)
    (hpasses : Passes buf size) (hinside : ¬RewindsInside buf size)
    (hover : ¬Overshoots buf size) :
    buf.writer.head.toNat % buf.cap.toNat + size.toNat ≤ buf.cap.toNat := by
  by_contra hlong
  have htail : ¬(buf.writer.tail < buf.writer.head ∨ buf.cap < buf.writer.tail) := by
    intro htail
    refine hover ⟨hpasses, htail, ?_⟩
    rw [toNat_head_mod]
    omega
  rw [not_or, UInt64.lt_iff_toNat_lt, UInt64.lt_iff_toNat_lt] at htail
  have hhead := h.writer_head_rewind hsize hpasses.1 hinside
  have hmod := Nat.mod_le buf.writer.head.toNat buf.cap.toNat
  have hroom := UInt64.le_iff_toNat_le.mp hpasses.2
  rw [ringBufferWriterCapacity, writer_tail_rewind, toNat_sub_of_le (by omega), hhead] at hroom
  omega

theorem rewind (h : Synced buf pending) (hsize : 0 < size.toNat)
    (hroom : size ≤ ringBufferWriterCapacity buf) (hinside : ¬RewindsInside buf size) :
    Synced (ringBufferRewind buf size) pending := by
  have hhead := h.writer_head_rewind hsize hroom hinside
  have hmod := Nat.mod_le buf.writer.head.toNat buf.cap.toNat
  have hwh := h.wh_le
  refine ⟨by simpa using h.cap_pow, ?_, ?_, by simpa [ringBufferReaderCapacity] using h.unread,
    h.nonempty, by simpa using h.unbroken⟩
  · rw [hhead, cap_rewind]
    omega
  · rw [hhead, reader_rewind, cap_rewind]
    exact h.sync.trans (Nat.mod_modEq _ _).symm

theorem accept (h : Synced buf pending) {item : List UInt8} (hsize : 0 < item.length)
    (hitem : item.length = size.toNat)
    (hfits : buf.writer.head.toNat + size.toNat ≤ buf.cap.toNat)
    (hcount : (ringBufferReaderCapacity buf).toNat + size.toNat < 2 ^ 64) :
    Synced (ringBufferAccept buf item size) (pending ++ [item]) := by
  have hcap := buf.cap.toNat_lt
  have hdvd := h.cap_pow.dvd_radix
  have hhead : (buf.writer.head + size).toNat = buf.writer.head.toNat + size.toNat :=
    toNat_add_of_lt (by omega)
  have hend : buf.reader.head.toNat + pending.flatten.length ≡ buf.writer.head.toNat
      [MOD buf.cap.toNat] := by
    have hsub := toNat_modEq_add_sub hdvd buf.reader.tail buf.reader.head
    have hunread : (buf.reader.tail - buf.reader.head).toNat = pending.flatten.length := h.unread
    rw [hunread] at hsub
    exact hsub.symm.trans h.sync
  refine ⟨by simpa using h.cap_pow, ?_, ?_, ?_, ?_, ?_⟩
  · rw [writer_head_accept, cap_accept, hhead]
    exact hfits
  · rw [reader_accept, writer_head_accept, cap_accept, hhead]
    exact (toNat_add_modEq hdvd _ _).trans (h.sync.add_right size.toNat)
  · rw [ringBufferReaderCapacity, reader_accept]
    change (buf.reader.tail + size - buf.reader.head).toNat = _
    have hunread : (buf.reader.tail - buf.reader.head).toNat = pending.flatten.length := h.unread
    rw [toNat_add_sub hcount, hunread, List.flatten_append, List.length_append]
    simp [hitem]
  · intro other hother
    rcases List.mem_append.mp hother with hold | hnew
    · exact h.nonempty other hold
    · rwa [List.mem_singleton.mp hnew]
  · rw [cap_accept, reader_accept]
    apply h.unbroken.push
    have hmod := Nat.mod_le buf.writer.head.toNat buf.cap.toNat
    have hend' : (buf.reader.head.toNat + pending.flatten.length) % buf.cap.toNat =
        buf.writer.head.toNat % buf.cap.toNat := hend
    omega

theorem enqueue (h : Synced buf pending) {item : List UInt8} (hsize : 0 < item.length)
    (hitem : item.length = size.toNat) (hinside : ¬RewindsInside buf size)
    (hover : ¬Overshoots buf size) (hcount : ¬Overcounts buf size) :
    ((ringBufferEnqueue buf item size).2 = -1 ∧
      Synced (ringBufferEnqueue buf item size).1 pending) ∨
    ((ringBufferEnqueue buf item size).2 = 0 ∧
      (ringBufferMask buf (ringBufferRewind buf size).writer.head).toNat + item.length ≤
        buf.cap.toNat ∧
      Synced (ringBufferEnqueue buf item size).1 (pending ++ [item])) := by
  have hpos : 0 < size.toNat := hitem ▸ hsize
  rcases enqueue_cases buf item size with
    ⟨_, heq⟩ | ⟨hroom, _, heq⟩ | ⟨hroom, hroom', heq⟩
  · left
    rw [heq]
    exact ⟨rfl, h⟩
  · left
    rw [heq]
    exact ⟨rfl, h.rewind hpos hroom hinside⟩
  · right
    have hpasses : Passes buf size := ⟨hroom, hroom'⟩
    have hhead := h.writer_head_rewind hpos hroom hinside
    have hfits := h.head_add_le hpos hpasses hinside hover
    have hwraps : ¬2 ^ 64 ≤ (ringBufferReaderCapacity buf).toNat + size.toNat := fun hle =>
      hcount ⟨hpasses, hle⟩
    rw [heq]
    refine ⟨rfl, ?_, (h.rewind hpos hroom hinside).accept hsize hitem ?_ ?_⟩
    · rw [toNat_mask h.cap_pow, hhead, Nat.mod_mod, hitem]
      exact hfits
    · rw [hhead, cap_rewind]
      exact hfits
    · rw [ringBufferReaderCapacity, reader_rewind]
      exact Nat.not_le.mp hwraps

theorem dequeue {item : List UInt8} (h : Synced buf (item :: pending))
    (hitem : item.length = size.toNat) :
    (ringBufferDequeue buf size).2 ≠ none ∧
      (ringBufferMask buf buf.reader.head).toNat + size.toNat ≤ buf.cap.toNat ∧
      Synced (ringBufferDequeue buf size).1 pending := by
  have hunread := h.unread
  rw [List.flatten_cons, List.length_append, hitem] at hunread
  have hle : size.toNat ≤ (buf.reader.tail - buf.reader.head).toNat := by
    rw [ringBufferReaderCapacity] at hunread
    omega
  have hrest : (buf.reader.tail - (buf.reader.head + size)).toNat = pending.flatten.length := by
    rw [ringBufferReaderCapacity] at hunread
    rw [toNat_sub_add hle]
    omega
  have hplaced := h.unbroken
  have hmove : buf.reader.head.toNat + item.length ≡ (buf.reader.head + size).toNat
      [MOD buf.cap.toNat] := by
    rw [hitem]
    exact (toNat_add_modEq h.cap_pow.dvd_radix _ _).symm
  have htail : ∀ other ∈ pending, 0 < other.length := fun other hother =>
    h.nonempty other (List.mem_cons_of_mem item hother)
  rcases dequeue_cases buf size with ⟨hlt, _⟩ | ⟨_, heq⟩
  · rw [UInt64.lt_iff_toNat_lt, ringBufferReaderCapacity] at hlt
    omega
  · rw [heq]
    refine ⟨Option.some_ne_none _, ?_, ?_⟩
    · rw [toNat_mask h.cap_pow, ← hitem]
      exact hplaced.1
    · unfold ringBufferTryReset ringBufferDecrement
      split
      · -- the last record was read: both ends go to the writer's head
        rename_i hmet
        have hlen : pending.flatten.length = 0 := by
          rw [← hrest]
          exact toNat_sub_eq_zero.mpr hmet
        have hnil : pending = [] := by
          cases pending with
          | nil => rfl
          | cons other rest =>
              have hother := htail other (by simp)
              rw [List.flatten_cons, List.length_append] at hlen
              omega
        subst hnil
        refine ⟨h.cap_pow, h.wh_le, Nat.ModEq.refl _, ?_, by simp, trivial⟩
        simp [ringBufferReaderCapacity]
      · exact ⟨h.cap_pow, h.wh_le, h.sync, hrest, htail, hplaced.2.congr_start hmove⟩

end Synced

/-! ## Runs -/

/-- The records behind the returned ones are the unread ones. -/
structure Log.Synced (cap : UInt64) (log : Log) : Prop where
  cap_eq : log.buffer.cap = cap
  returned_le : log.returned.length ≤ log.accepted.length
  pending : Deque.Synced log.buffer (log.accepted.drop log.returned.length)

theorem Log.synced_start {cap : UInt64} (hcap : IsPow2 cap) : (Log.start cap).Synced cap :=
  ⟨rfl, Nat.le_refl _, synced_create hcap⟩

namespace Log.Synced

variable {cap : UInt64} {log : Log}

theorem enqueue (h : log.Synced cap) {item : List UInt8} (hitem : Asks log (.enqueue item))
    (hbounded : Bounded log (.enqueue item)) :
    InBounds log (.enqueue item) ∧ (log.step (.enqueue item)).Synced cap := by
  obtain ⟨hcap, hle, hpending⟩ := h
  obtain ⟨hinside, hover, hcount⟩ := hbounded
  have hsize : item.length = (UInt64.ofNat item.length).toNat :=
    (UInt64.toNat_ofNat_of_lt' hitem.2).symm
  have hcapstep : (ringBufferEnqueue log.buffer item (.ofNat item.length)).1.cap = cap := by
    rw [cap_enqueue, hcap]
  rcases hpending.enqueue hitem.1 hsize hinside hover hcount with
    ⟨hcode, hnext⟩ | ⟨hcode, hfits, hnext⟩
  · refine ⟨fun hzero => ?_, ?_⟩
    · rw [hcode] at hzero
      exact absurd hzero (by decide)
    · simp only [Log.step, hcode]
      exact ⟨hcapstep, by simpa using hle, by simpa using hnext⟩
  · refine ⟨fun _ => hfits, ?_⟩
    simp only [Log.step, hcode]
    refine ⟨hcapstep, ?_, ?_⟩
    · simp only [if_true, List.length_append]
      omega
    · simpa [List.drop_append_of_le_length hle] using hnext

theorem not_inBounds_of_overshoots (h : log.Synced cap) {item : List UInt8}
    (hitem : Asks log (.enqueue item)) (hinside : ¬RewindsInside log.buffer (.ofNat item.length))
    (hover : Overshoots log.buffer (.ofNat item.length)) : ¬InBounds log (.enqueue item) := by
  obtain ⟨hpasses, _, hlong⟩ := hover
  have hsize : (UInt64.ofNat item.length).toNat = item.length :=
    UInt64.toNat_ofNat_of_lt' hitem.2
  have hhead := h.pending.writer_head_rewind (by rw [hsize]; exact hitem.1) hpasses.1 hinside
  have hcode : (ringBufferEnqueue log.buffer item (.ofNat item.length)).2 = 0 := by
    rcases enqueue_cases log.buffer item (.ofNat item.length) with
      ⟨hgt, _⟩ | ⟨_, hgt, _⟩ | ⟨_, _, heq⟩
    · exact absurd hpasses.1 (UInt64.not_le.mpr hgt)
    · exact absurd hpasses.2 (UInt64.not_le.mpr hgt)
    · rw [heq]
  intro hbounds
  have hle := hbounds hcode
  rw [toNat_mask h.pending.cap_pow, hhead, Nat.mod_mod] at hle
  rw [Synced.toNat_head_mod, hsize] at hlong
  omega

theorem dequeue (h : log.Synced cap) {size : UInt64} (hask : Asks log (.dequeue size)) :
    InBounds log (.dequeue size) ∧ (log.step (.dequeue size)).Synced cap := by
  obtain ⟨hcap, hle, hpending⟩ := h
  obtain ⟨item, holdest, hitem⟩ := Option.map_eq_some_iff.mp hask
  have hlt : log.returned.length < log.accepted.length := by
    by_contra hge
    rw [Log.oldest, List.getElem?_eq_none (by omega)] at holdest
    cases holdest
  have hsplit : log.accepted.drop log.returned.length =
      item :: log.accepted.drop (log.returned.length + 1) := by
    rw [Log.oldest, List.getElem?_eq_getElem hlt, Option.some.injEq] at holdest
    rw [List.drop_eq_getElem_cons hlt, holdest]
  rw [hsplit] at hpending
  obtain ⟨hsome, hfits, hnext⟩ := hpending.dequeue hitem
  obtain ⟨data, hdata⟩ := Option.ne_none_iff_exists'.mp hsome
  have hcapstep : (ringBufferDequeue log.buffer size).1.cap = cap := by
    rw [cap_dequeue, hcap]
  refine ⟨fun _ => hfits, ?_⟩
  simp only [Log.step, hdata, Option.toList_some]
  refine ⟨hcapstep, ?_, ?_⟩
  · rw [List.length_append]
    exact hlt
  · rw [List.length_append]
    exact hnext

theorem step (h : log.Synced cap) {op : Op} (hop : Asks log op ∧ Bounded log op) :
    InBounds log op ∧ (log.step op).Synced cap := by
  cases op with
  | enqueue item => exact h.enqueue hop.1 hop.2
  | dequeue size => exact h.dequeue hop.1

end Log.Synced

/-- In a run in which each dequeue asks for the oldest record, no copy leaves
the buffer as long as no enqueue goes back to 0 from inside the buffer, is let
through by a misplaced tail with a record longer than the rest of the buffer,
or brings the unread bytes to `2 ^ 64`. -/
theorem copies_in_bounds {cap : UInt64} (hcap : IsPow2 cap) (ops : List Op)
    (hasks : Along Log.step Asks (Log.start cap) ops)
    (hbounded : Along Log.step Bounded (Log.start cap) ops) :
    Along Log.step InBounds (Log.start cap) ops := by
  have hboth : Along Log.step (fun log op => Asks log op ∧ Bounded log op) (Log.start cap) ops :=
    along_and hasks hbounded
  exact along_mono (fun _ _ hlog hop => (hlog.step hop).2)
    (fun _ _ hlog hop => (hlog.step hop).1) (Log.synced_start hcap) hboth

theorem copies_in_bounds_mixed :
    Along Log.step InBounds (Log.start 8)
      [.enqueue [1, 1, 1, 1, 1], .dequeue 5, .enqueue [2, 2, 2], .dequeue 3,
        .enqueue [3, 3, 3, 3], .dequeue 4] :=
  copies_in_bounds ⟨3, rfl⟩ _ (by decide +kernel) (by decide +kernel)

/-- The last record of five bytes is written from offset 5 of eight on. -/
theorem write_past_end :
    ¬∀ (cap : UInt64) (ops : List Op), IsPow2 cap →
      Along Log.step Asks (Log.start cap) ops →
        Along Log.step InBounds (Log.start cap) ops := by
  intro h
  have hrun := h 8 [.enqueue [1, 1, 1, 1, 1], .dequeue 5, .enqueue [2, 2, 2], .dequeue 3,
    .enqueue [3, 3, 3, 3], .dequeue 4, .enqueue [4], .enqueue [5, 5, 5, 5, 5]] ⟨3, rfl⟩
    (by decide +kernel)
  revert hrun
  decide +kernel

end Doctrina.Deque
