import Doctrina.Deque.Records
import Mathlib.Algebra.Order.BigOperators.Group.List
/-!
# Records that need no second lap

Together the records are no longer than the buffer, so the writer could store
them one behind another from offset 0 on.  It does as long as no record is
longer than those before it together; the first one that is goes to offset 0
again, over the oldest bytes.
-/

namespace Doctrina.Deque

open Doctrina.Lib.Execution Doctrina.Lib.Ring Doctrina.Lib.Word64

def enqueuedSizes (ops : List Op) : List Nat :=
  ops.filterMap fun op =>
    match op with
    | .enqueue item => some item.length
    | .dequeue _ => none

/-- An enqueue returns 0, and a dequeue the oldest record. -/
def Delivers (log : Log) : Op → Prop
  | .enqueue item => (ringBufferEnqueue log.buffer item (.ofNat item.length)).2 = 0
  | .dequeue size => (ringBufferDequeue log.buffer size).2 = log.oldest

instance (log : Log) : DecidablePred (Delivers log)
  | .enqueue _ => inferInstanceAs (Decidable (_ = _))
  | .dequeue _ => inferInstanceAs (Decidable (_ = _))

@[simp] theorem enqueuedSizes_append (ops ops' : List Op) :
    enqueuedSizes (ops ++ ops') = enqueuedSizes ops ++ enqueuedSizes ops' :=
  List.filterMap_append

@[simp] theorem enqueuedSizes_map_enqueue (items : List (List UInt8)) :
    enqueuedSizes (items.map .enqueue) = items.map List.length := by
  induction items with
  | nil => rfl
  | cons item items ih => exact congrArg (item.length :: ·) ih

theorem along_asks_enqueue {log : Log} {items : List (List UInt8)}
    (h : ∀ item ∈ items, 0 < item.length ∧ item.length < 2 ^ 64) :
    Along Log.step Asks log (items.map .enqueue) := by
  induction items generalizing log with
  | nil => trivial
  | cons item items ih =>
      exact ⟨h item (by simp), ih fun other hother => h other (by simp [hother])⟩

theorem oldest_step_enqueue {log : Log} {first : List UInt8} (item : List UInt8)
    (h : log.oldest = some first) : (log.step (.enqueue item)).oldest = some first := by
  have hlt : log.returned.length < log.accepted.length := by
    by_contra hge
    rw [Log.oldest, List.getElem?_eq_none (by omega)] at h
    cases h
  unfold Log.oldest Log.step
  dsimp only
  split
  · rw [List.getElem?_append_left hlt]
    exact h
  · exact h

/-- With `total` bytes before them, no record but the first is longer than
those before it together. -/
def AtMostBefore : Nat → List Nat → Prop
  | _, [] => True
  | total, size :: sizes => (0 < total → size ≤ total) ∧ AtMostBefore (total + size) sizes

instance decidableAtMostBefore : ∀ total sizes, Decidable (AtMostBefore total sizes)
  | _, [] => .isTrue trivial
  | total, size :: sizes =>
      @instDecidableAnd _ _ _ (decidableAtMostBefore (total + size) sizes)

theorem not_atMostBefore {total : Nat} {sizes : List Nat} (h : ¬AtMostBefore total sizes) :
    ∃ before size after, sizes = before ++ size :: after ∧ AtMostBefore total before ∧
      0 < total + before.sum ∧ total + before.sum < size := by
  induction sizes generalizing total with
  | nil => exact absurd trivial h
  | cons first sizes ih =>
      by_cases hfirst : 0 < total → first ≤ total
      · have hrest : ¬AtMostBefore (total + first) sizes := fun hrest => h ⟨hfirst, hrest⟩
        obtain ⟨before, size, after, rfl, hbefore, hpos, hlt⟩ := ih hrest
        refine ⟨first :: before, size, after, rfl, ⟨hfirst, hbefore⟩, ?_, ?_⟩
        · rw [List.sum_cons]
          omega
        · rw [List.sum_cons]
          omega
      · exact ⟨[], first, sizes, rfl, trivial, by simp; omega, by simp; omega⟩

/-- The accepted records lie one behind another from offset 0 on. -/
structure Log.Straight (cap : UInt64) (log : Log) : Prop where
  cap_eq : log.buffer.cap = cap
  cap_pow : IsPow2 cap
  accepted_le : log.acceptedBytes ≤ cap.toNat
  nonempty : ∀ item ∈ log.accepted, 0 < item.length
  returned_prefix : log.returned <+: log.accepted
  writer_head : log.buffer.writer.head.toNat = log.acceptedBytes
  writer_tail : log.acceptedBytes < cap.toNat → log.buffer.writer.tail = cap
  reader_head : log.buffer.reader.head.toNat = log.returnedBytes
  reader_tail : log.buffer.reader.tail.toNat = log.acceptedBytes
  bytes : readAt log.buffer.data 0 log.acceptedBytes = log.accepted.flatten

theorem Log.straight_start {cap : UInt64} (hcap : IsPow2 cap) :
    (Log.start cap).Straight cap where
  cap_eq := rfl
  cap_pow := hcap
  accepted_le := Nat.zero_le _
  nonempty := by simp [Log.start]
  returned_prefix := List.prefix_refl _
  writer_head := rfl
  writer_tail _ := rfl
  reader_head := rfl
  reader_tail := rfl
  bytes := rfl

namespace Log.Straight

variable {cap : UInt64} {log : Log} {item : List UInt8}

theorem le_writerCapacity (h : log.Straight cap)
    (hroom : log.acceptedBytes + item.length ≤ cap.toNat) (hpos : 0 < item.length) :
    UInt64.ofNat item.length ≤ ringBufferWriterCapacity log.buffer := by
  have hword := cap.toNat_lt
  have hsize : (UInt64.ofNat item.length).toNat = item.length :=
    UInt64.toNat_ofNat_of_lt' (show item.length < 2 ^ 64 by omega)
  have hhead := h.writer_head
  rw [UInt64.le_iff_toNat_le, hsize, ringBufferWriterCapacity, h.writer_tail (by omega),
    toNat_sub_of_le (by omega), hhead]
  omega

theorem toNat_head_mod (h : log.Straight cap) (hlt : log.acceptedBytes < cap.toNat) :
    (log.buffer.writer.head % log.buffer.cap).toNat = log.acceptedBytes := by
  rw [UInt64.toNat_mod, h.cap_eq, h.writer_head, Nat.mod_eq_of_lt hlt]

theorem rewind_eq (h : log.Straight cap) (hlt : log.acceptedBytes < cap.toNat)
    (hsize : item.length < 2 ^ 64)
    (hbefore : 0 < log.acceptedBytes → item.length ≤ log.acceptedBytes) :
    ringBufferRewind log.buffer (.ofNat item.length) = log.buffer := by
  have hmod := h.toNat_head_mod hlt
  by_cases hgoes : log.buffer.writer.head % log.buffer.cap < UInt64.ofNat item.length
  · have hlong : log.acceptedBytes < item.length := by
      rw [UInt64.lt_iff_toNat_lt, hmod, UInt64.toNat_ofNat_of_lt' hsize] at hgoes
      exact hgoes
    have hzero : log.buffer.writer.head = 0 := by
      apply UInt64.toNat_inj.mp
      rw [h.writer_head, UInt64.toNat_zero]
      omega
    rw [rewind_of_lt hgoes, ← hzero]
  · exact rewind_of_le (UInt64.not_lt.mp hgoes)

theorem toNat_mask_of_lt (h : log.Straight cap) {index : UInt64}
    (hlt : index.toNat < cap.toNat) : (ringBufferMask log.buffer index).toNat = index.toNat := by
  rw [toNat_mask (by rw [h.cap_eq]; exact h.cap_pow), h.cap_eq, Nat.mod_eq_of_lt hlt]

theorem enqueue_eq (h : log.Straight cap) (hpos : 0 < item.length)
    (hroom : log.acceptedBytes + item.length ≤ cap.toNat)
    (hbefore : 0 < log.acceptedBytes → item.length ≤ log.acceptedBytes) :
    ringBufferEnqueue log.buffer item (.ofNat item.length) =
      (ringBufferAccept log.buffer item (.ofNat item.length), 0) := by
  have hword := cap.toNat_lt
  have hrewind := h.rewind_eq (by omega) (by omega) hbefore
  have hfirst := h.le_writerCapacity hroom hpos
  rcases enqueue_cases log.buffer item (.ofNat item.length) with
    ⟨hgt, _⟩ | ⟨_, hgt, _⟩ | ⟨_, _, heq⟩
  · exact absurd hfirst (UInt64.not_le.mpr hgt)
  · rw [hrewind] at hgt
    exact absurd hfirst (UInt64.not_le.mpr hgt)
  · rw [heq, hrewind]

theorem enqueue (h : log.Straight cap) (hpos : 0 < item.length)
    (hroom : log.acceptedBytes + item.length ≤ cap.toNat)
    (hbefore : 0 < log.acceptedBytes → item.length ≤ log.acceptedBytes) :
    Delivers log (.enqueue item) ∧ (log.step (.enqueue item)).Straight cap ∧
      (log.step (.enqueue item)).accepted = log.accepted ++ [item] ∧
      (log.step (.enqueue item)).returned = log.returned := by
  have hword := cap.toNat_lt
  have hsize : (UInt64.ofNat item.length).toNat = item.length :=
    UInt64.toNat_ofNat_of_lt' (show item.length < 2 ^ 64 by omega)
  have heq := h.enqueue_eq hpos hroom hbefore
  have hhead := h.writer_head
  have hstep : log.step (.enqueue item) =
      ⟨ringBufferAccept log.buffer item (.ofNat item.length), log.accepted ++ [item],
        log.returned⟩ := by
    simp only [Log.step, heq]
    rfl
  have hbytes : (Log.mk (ringBufferAccept log.buffer item (.ofNat item.length))
      (log.accepted ++ [item]) log.returned).acceptedBytes =
        log.acceptedBytes + item.length := by
    simp [Log.acceptedBytes]
  have hnext : (log.buffer.writer.head + UInt64.ofNat item.length).toNat =
      log.acceptedBytes + item.length := by
    rw [toNat_add_of_lt (by omega), hhead, hsize]
  rw [hstep]
  refine ⟨congrArg Prod.snd heq, ⟨?_, h.cap_pow, ?_, ?_, ?_, ?_, ?_, ?_, ?_, ?_⟩, rfl, rfl⟩
  · rw [cap_accept, h.cap_eq]
  · rw [hbytes]
    exact hroom
  · intro other hother
    rcases List.mem_append.mp hother with hold | hnew
    · exact h.nonempty other hold
    · rwa [List.mem_singleton.mp hnew]
  · exact h.returned_prefix.trans (List.prefix_append _ _)
  · rw [hbytes, writer_head_accept, hnext]
  · rw [hbytes]
    intro hmore
    have htail := h.writer_tail (by omega)
    rw [writer_tail_accept, if_neg, htail]
    rw [← UInt64.toNat_inj, hnext, htail]
    omega
  · rw [reader_accept]
    exact h.reader_head
  · rw [hbytes, reader_accept]
    change (log.buffer.reader.tail + UInt64.ofNat item.length).toNat = _
    have htail := h.reader_tail
    rw [toNat_add_of_lt (by omega), htail, hsize]
  · have hmask : (ringBufferMask log.buffer log.buffer.writer.head).toNat =
        log.acceptedBytes := by
      rw [h.toNat_mask_of_lt (by omega), hhead]
    rw [hbytes, data_accept, hmask, hsize, List.take_length, readAt_append, Nat.zero_add,
      readAt_writeAt_same, readAt_writeAt_disjoint _ _ _ _ _ (.inl (by omega)), h.bytes]
    simp

theorem accepted_split (h : log.Straight cap) (holdest : log.oldest = some item) :
    ∃ rest, log.accepted = log.returned ++ item :: rest := by
  obtain ⟨pending, hsplit⟩ := h.returned_prefix
  rw [Log.oldest, ← hsplit, List.getElem?_append_right (Nat.le_refl _), Nat.sub_self] at holdest
  cases pending with
  | nil => cases holdest
  | cons first rest =>
      rw [List.getElem?_cons_zero, Option.some.injEq] at holdest
      exact ⟨rest, by rw [← hsplit, holdest]⟩

theorem acceptedBytes_of_split {rest : List (List UInt8)}
    (hsplit : log.accepted = log.returned ++ item :: rest) :
    log.acceptedBytes = log.returnedBytes + (item.length + rest.flatten.length) := by
  simp [Log.acceptedBytes, Log.returnedBytes, hsplit]

theorem readAt_oldest (h : log.Straight cap) {rest : List (List UInt8)}
    (hsplit : log.accepted = log.returned ++ item :: rest) (hpos : 0 < item.length) :
    readAt log.buffer.data (ringBufferMask log.buffer log.buffer.reader.head).toNat
      item.length = item := by
  have htotal := acceptedBytes_of_split hsplit
  have hle := h.accepted_le
  have hhead := h.reader_head
  have hmask : (ringBufferMask log.buffer log.buffer.reader.head).toNat = log.returnedBytes := by
    rw [h.toNat_mask_of_lt (by omega), hhead]
  have hbytes := h.bytes
  rw [htotal, readAt_append, readAt_append, Nat.zero_add, hsplit, List.flatten_append,
    List.flatten_cons] at hbytes
  obtain ⟨_, hbehind⟩ := List.append_inj hbytes (length_readAt _ _ _)
  obtain ⟨hfound, _⟩ := List.append_inj hbehind (length_readAt _ _ _)
  rw [hmask, hfound]

theorem dequeue_eq (h : log.Straight cap) {rest : List (List UInt8)} {size : UInt64}
    (hsplit : log.accepted = log.returned ++ item :: rest) (hitem : item.length = size.toNat) :
    ringBufferDequeue log.buffer size =
      (ringBufferTryReset (ringBufferDecrement log.buffer size), some item) := by
  have hpos : 0 < item.length := h.nonempty item (by rw [hsplit]; simp)
  have htotal := acceptedBytes_of_split hsplit
  have hhead := h.reader_head
  have htail := h.reader_tail
  rcases dequeue_cases log.buffer size with ⟨hgt, _⟩ | ⟨_, heq⟩
  · rw [UInt64.lt_iff_toNat_lt, ringBufferReaderCapacity, toNat_sub_of_le (by omega)] at hgt
    omega
  · rw [heq, ← hitem, h.readAt_oldest hsplit hpos]

theorem dequeue (h : log.Straight cap) {size : UInt64} (hask : Asks log (.dequeue size)) :
    Delivers log (.dequeue size) ∧ (log.step (.dequeue size)).Straight cap ∧
      (log.step (.dequeue size)).accepted = log.accepted := by
  obtain ⟨item, holdest, hitem⟩ := Option.map_eq_some_iff.mp hask
  obtain ⟨rest, hsplit⟩ := h.accepted_split holdest
  have htotal := acceptedBytes_of_split hsplit
  have hle := h.accepted_le
  have hword := cap.toNat_lt
  have hhead := h.reader_head
  have htail := h.reader_tail
  have heq := h.dequeue_eq hsplit hitem
  have hstep : log.step (.dequeue size) =
      ⟨ringBufferTryReset (ringBufferDecrement log.buffer size), log.accepted,
        log.returned ++ [item]⟩ := by
    simp only [Log.step, heq]
    rfl
  have hnext : (log.buffer.reader.head + size).toNat = log.returnedBytes + item.length := by
    rw [toNat_add_of_lt (by omega), hhead, hitem]
  have hreturned : (Log.mk (ringBufferTryReset (ringBufferDecrement log.buffer size))
      log.accepted (log.returned ++ [item])).returnedBytes =
        log.returnedBytes + item.length := by
    simp [Log.returnedBytes]
  have hdelivers : Delivers log (.dequeue size) := by
    rw [Delivers, heq, holdest]
  rw [hstep]
  refine ⟨hdelivers, ⟨?_, h.cap_pow, hle, h.nonempty, ?_, ?_, ?_, ?_, ?_, ?_⟩, rfl⟩
  · simpa [ringBufferDecrement] using h.cap_eq
  · exact ⟨rest, by rw [hsplit]; simp⟩
  · rw [writer_tryReset]
    exact h.writer_head
  · rw [writer_tryReset]
    exact h.writer_tail
  · rw [hreturned, ← hnext]
    unfold ringBufferTryReset ringBufferDecrement
    split
    · -- nothing is left to read: the reader goes to the writer's head, where it stands
      rename_i hmet
      have hend : log.buffer.reader.head + size = log.buffer.reader.tail := hmet
      change log.buffer.writer.head.toNat = _
      rw [hend, htail, h.writer_head]
    · rfl
  · unfold ringBufferTryReset ringBufferDecrement
    split
    · exact h.writer_head
    · exact htail
  · rw [data_tryReset]
    exact h.bytes

theorem along_delivers {ops : List Op} (h : log.Straight cap)
    (hroom : log.acceptedBytes + (enqueuedSizes ops).sum ≤ cap.toNat)
    (hbefore : AtMostBefore log.acceptedBytes (enqueuedSizes ops))
    (hasks : Along Log.step Asks log ops) : Along Log.step Delivers log ops := by
  induction ops generalizing log with
  | nil => trivial
  | cons op ops ih =>
      cases op with
      | enqueue item =>
          change log.acceptedBytes + (item.length :: enqueuedSizes ops).sum ≤ _ at hroom
          rw [List.sum_cons] at hroom
          obtain ⟨hdelivers, hnext, haccepted, _⟩ :=
            h.enqueue hasks.1.1 (by omega) hbefore.1
          have hbytes : (log.step (.enqueue item)).acceptedBytes =
              log.acceptedBytes + item.length := by
            simp [Log.acceptedBytes, haccepted]
          refine ⟨hdelivers, ih hnext ?_ ?_ hasks.2⟩
          · rw [hbytes]
            omega
          · rw [hbytes]
            exact hbefore.2
      | dequeue size =>
          obtain ⟨hdelivers, hnext, haccepted⟩ := h.dequeue hasks.1
          have hbytes : (log.step (.dequeue size)).acceptedBytes = log.acceptedBytes := by
            simp [Log.acceptedBytes, haccepted]
          refine ⟨hdelivers, ih hnext ?_ ?_ hasks.2⟩
          · rw [hbytes]
            exact hroom
          · rw [hbytes]
            exact hbefore

theorem foldl_enqueue {items : List (List UInt8)} (h : log.Straight cap)
    (hpos : ∀ item ∈ items, 0 < item.length)
    (hroom : log.acceptedBytes + (items.map List.length).sum ≤ cap.toNat)
    (hbefore : AtMostBefore log.acceptedBytes (items.map List.length)) :
    ((items.map Op.enqueue).foldl Log.step log).Straight cap ∧
      ((items.map Op.enqueue).foldl Log.step log).accepted = log.accepted ++ items ∧
      ((items.map Op.enqueue).foldl Log.step log).returned = log.returned := by
  induction items generalizing log with
  | nil => exact ⟨h, by simp, rfl⟩
  | cons item items ih =>
      rw [List.map_cons, List.sum_cons] at hroom
      obtain ⟨_, hnext, haccepted, hreturned⟩ :=
        h.enqueue (hpos item (by simp)) (by omega) hbefore.1
      have hbytes : (log.step (.enqueue item)).acceptedBytes =
          log.acceptedBytes + item.length := by
        simp [Log.acceptedBytes, haccepted]
      obtain ⟨hlast, haccepted', hreturned'⟩ :=
        ih hnext (fun other hother => hpos other (by simp [hother])) (by omega)
          (by rw [hbytes]; exact hbefore.2)
      refine ⟨hlast, ?_, hreturned'.trans hreturned⟩
      rw [List.map_cons, List.foldl_cons, haccepted', haccepted, List.append_assoc]
      rfl

/-- A record longer than those before it is stored over the oldest bytes. -/
theorem not_delivers (h : log.Straight cap) {first : List UInt8} {rest : List (List UInt8)}
    (haccepted : log.accepted = first :: rest) (hreturned : log.returned = [])
    (hroom : log.acceptedBytes + item.length ≤ cap.toNat)
    (hlong : log.acceptedBytes < item.length) (hdiffers : item.take first.length ≠ first) :
    ¬Delivers (log.step (.enqueue item)) (.dequeue (.ofNat first.length)) := by
  have hword := cap.toNat_lt
  have hlt : item.length < 2 ^ 64 := by omega
  have hsize : (UInt64.ofNat item.length).toNat = item.length := UInt64.toNat_ofNat_of_lt' hlt
  have hfirst : first.length ≤ log.acceptedBytes := by
    simp [Log.acceptedBytes, haccepted]
  have hsize' : (UInt64.ofNat first.length).toNat = first.length :=
    UInt64.toNat_ofNat_of_lt' (show first.length < 2 ^ 64 by omega)
  have hgoes : log.buffer.writer.head % log.buffer.cap < UInt64.ofNat item.length := by
    rw [UInt64.lt_iff_toNat_lt, h.toNat_head_mod (by omega), hsize]
    exact hlong
  have hcapacity : ringBufferWriterCapacity
      (ringBufferRewind log.buffer (.ofNat item.length)) = cap := by
    rw [rewind_of_lt hgoes, ringBufferWriterCapacity]
    exact (UInt64.sub_zero _).trans (h.writer_tail (by omega))
  have heq : ringBufferEnqueue log.buffer item (.ofNat item.length) =
      (ringBufferAccept { log.buffer with writer.head := 0 } item (.ofNat item.length), 0) := by
    rcases enqueue_cases log.buffer item (.ofNat item.length) with
      ⟨hgt, _⟩ | ⟨_, hgt, _⟩ | ⟨_, _, heq⟩
    · exact absurd (h.le_writerCapacity hroom (by omega)) (UInt64.not_le.mpr hgt)
    · rw [hcapacity, UInt64.lt_iff_toNat_lt, hsize] at hgt
      omega
    · rw [heq, rewind_of_lt hgoes]
  have hhead := h.reader_head
  have htail := h.reader_tail
  have hzero : log.returnedBytes = 0 := by
    simp [Log.returnedBytes, hreturned]
  have hoffset : ∀ index : UInt64, index.toNat = 0 → ∀ self : RingBuffer,
      (ringBufferMask self index).toNat = 0 := by
    intro index hindex self
    rw [ringBufferMask, UInt64.toNat_and, hindex, Nat.zero_and]
  have holdest : (log.step (.enqueue item)).oldest = some first :=
    oldest_step_enqueue item (by simp [Log.oldest, haccepted, hreturned])
  rw [Delivers, holdest]
  simp only [Log.step, heq]
  rcases dequeue_cases (ringBufferAccept { log.buffer with writer.head := 0 } item
      (.ofNat item.length)) (.ofNat first.length) with ⟨_, hdequeue⟩ | ⟨_, hdequeue⟩
  · rw [hdequeue]
    exact (Option.some_ne_none first).symm
  · rw [hdequeue, reader_accept, hoffset _ (hhead.trans hzero), data_accept,
      hoffset _ UInt64.toNat_zero, hsize, hsize', List.take_length,
      readAt_writeAt_prefix _ _ (by omega)]
    exact fun hsame => hdiffers (Option.some.inj hsame)

end Log.Straight

/-! ## A run that a longer record spoils -/

def zeros (sizes : List Nat) : List (List UInt8) := sizes.map fun n => List.replicate n 0

@[simp] theorem map_length_zeros (sizes : List Nat) : (zeros sizes).map List.length = sizes := by
  simp [zeros, Function.comp_def]

theorem replicate_ne_replicate {n : Nat} (h : 0 < n) :
    List.replicate n (1 : UInt8) ≠ List.replicate n 0 := by
  intro heq
  have hone : (1 : UInt8) ∈ List.replicate n 0 := by
    rw [← heq]
    exact List.mem_replicate.mpr ⟨h.ne', rfl⟩
  exact absurd (List.eq_of_mem_replicate hone) (by decide)

/-- Records of zeros, one of ones, a dequeue of the first, and more zeros. -/
def longRecordRun (first : Nat) (before : List Nat) (size : Nat) (after : List Nat) : List Op :=
  (zeros (first :: before)).map .enqueue ++
    ([.enqueue (List.replicate size 1), .dequeue (.ofNat first)] ++ (zeros after).map .enqueue)

theorem enqueuedSizes_longRecordRun (first : Nat) (before : List Nat) (size : Nat)
    (after : List Nat) :
    enqueuedSizes (longRecordRun first before size after) =
      first :: before ++ size :: after := by
  rw [longRecordRun, enqueuedSizes_append, enqueuedSizes_append, enqueuedSizes_map_enqueue,
    enqueuedSizes_map_enqueue, map_length_zeros, map_length_zeros]
  simp [enqueuedSizes]

section LongRecord

variable {cap : UInt64} {first size : Nat} {before after : List Nat}
  (hcap : IsPow2 cap) (hpos : ∀ other ∈ first :: before ++ size :: after, 0 < other)
  (hsum : (first :: before ++ size :: after).sum ≤ cap.toNat)

include hpos hsum in
theorem length_zeros_bounds {sizes : List Nat}
    (hsizes : ∀ n ∈ sizes, n ∈ first :: before ++ size :: after) :
    ∀ item ∈ zeros sizes, 0 < item.length ∧ item.length < 2 ^ 64 := by
  intro item hitem
  obtain ⟨n, hn, rfl⟩ := List.mem_map.mp hitem
  have hle := List.single_le_sum (fun _ _ => Nat.zero_le _) n (hsizes n hn)
  have hword := cap.toNat_lt
  rw [List.length_replicate]
  exact ⟨hpos n (hsizes n hn), by omega⟩

include hcap hpos hsum in
theorem straight_zeros (hbefore : AtMostBefore 0 (first :: before)) :
    ∃ log, ((zeros (first :: before)).map Op.enqueue).foldl Log.step (Log.start cap) = log ∧
      log.Straight cap ∧ log.accepted = List.replicate first 0 :: zeros before ∧
      log.returned = [] ∧ log.acceptedBytes = (first :: before).sum := by
  have hbounds : ∀ item ∈ zeros (first :: before), 0 < item.length := fun item hitem =>
    (length_zeros_bounds hpos hsum (fun n hn => List.mem_append_left _ hn) item hitem).1
  have hroom : (Log.start cap).acceptedBytes + ((zeros (first :: before)).map List.length).sum ≤
      cap.toNat := by
    rw [List.sum_append] at hsum
    rw [map_length_zeros, show (Log.start cap).acceptedBytes = 0 from rfl]
    omega
  have horder : AtMostBefore (Log.start cap).acceptedBytes
      ((zeros (first :: before)).map List.length) := by
    rw [map_length_zeros]
    exact hbefore
  obtain ⟨hstraight, haccepted, hreturned⟩ :=
    (Log.straight_start hcap).foldl_enqueue hbounds hroom horder
  refine ⟨_, rfl, hstraight, haccepted, hreturned, ?_⟩
  rw [Log.acceptedBytes, haccepted, List.length_flatten]
  exact congrArg List.sum (map_length_zeros (first :: before))

include hcap hpos hsum in
theorem along_asks_longRecordRun (hbefore : AtMostBefore 0 (first :: before)) :
    Along Log.step Asks (Log.start cap) (longRecordRun first before size after) := by
  obtain ⟨log, hlog, _, haccepted, hreturned, _⟩ :=
    straight_zeros hcap hpos hsum hbefore
  have hones : 0 < size ∧ size < 2 ^ 64 := by
    have hbounds := length_zeros_bounds hpos hsum (fun n hn => List.mem_append_right _ hn)
      (List.replicate size 0) (List.mem_map.mpr ⟨size, List.mem_cons_self, rfl⟩)
    rwa [List.length_replicate] at hbounds
  have hfirst : first < 2 ^ 64 := by
    have hword := cap.toNat_lt
    rw [List.cons_append, List.sum_cons] at hsum
    omega
  have holdest : log.oldest = some (List.replicate first 0) := by
    rw [Log.oldest, haccepted, hreturned]
    rfl
  rw [longRecordRun, along_append, along_append, hlog]
  refine ⟨along_asks_enqueue (length_zeros_bounds hpos hsum fun n hn =>
      List.mem_append_left _ hn), ⟨?_, ?_, trivial⟩,
    along_asks_enqueue (length_zeros_bounds hpos hsum fun n hn => by simp [hn])⟩
  · rw [Asks, List.length_replicate]
    exact hones
  · rw [Asks, oldest_step_enqueue _ holdest, Option.map_some, List.length_replicate,
      UInt64.toNat_ofNat_of_lt' hfirst]

include hcap hpos hsum in
theorem not_along_delivers_longRecordRun (hbefore : AtMostBefore 0 (first :: before))
    (hlong : (first :: before).sum < size) :
    ¬Along Log.step Delivers (Log.start cap) (longRecordRun first before size after) := by
  obtain ⟨log, hlog, hstraight, haccepted, hreturned, hbytes⟩ :=
    straight_zeros hcap hpos hsum hbefore
  rw [longRecordRun, along_append, along_append, hlog]
  intro h
  have hdelivers := h.2.1.2.1
  have hroom : log.acceptedBytes + (List.replicate size (1 : UInt8)).length ≤ cap.toNat := by
    rw [List.sum_append, List.sum_cons] at hsum
    rw [hbytes, List.length_replicate, List.sum_cons]
    rw [List.sum_cons] at hsum
    omega
  have hlong' : log.acceptedBytes < (List.replicate size (1 : UInt8)).length := by
    rw [hbytes, List.length_replicate]
    exact hlong
  have hdiffers : (List.replicate size (1 : UInt8)).take (List.replicate first (0 : UInt8)).length ≠
      List.replicate first 0 := by
    rw [List.sum_cons] at hlong
    rw [List.length_replicate, List.take_replicate, Nat.min_eq_left (by omega)]
    exact replicate_ne_replicate (hpos first (by simp))
  have hfails := hstraight.not_delivers haccepted hreturned hroom hlong' hdiffers
  rw [List.length_replicate] at hfails
  exact hfails hdelivers

end LongRecord

/-- Whatever the bytes of records of these sizes, which together fit into the
buffer, and wherever dequeues of the oldest record come between them: every
enqueue returns 0 and every dequeue the oldest record if and only if no record
but the first is longer than all those before it together. -/
theorem records_delivered_iff {cap : UInt64} (hcap : IsPow2 cap) (sizes : List Nat)
    (hpos : ∀ size ∈ sizes, 0 < size) (hsum : sizes.sum ≤ cap.toNat) :
    (∀ ops, enqueuedSizes ops = sizes → Along Log.step Asks (Log.start cap) ops →
        Along Log.step Delivers (Log.start cap) ops) ↔ AtMostBefore 0 sizes := by
  constructor
  · intro h
    by_contra hnot
    obtain ⟨before, size, after, rfl, hbefore, hfirst, hlong⟩ := not_atMostBefore hnot
    rw [Nat.zero_add] at hfirst hlong
    cases before with
    | nil => exact absurd hfirst (by simp)
    | cons first before =>
        have hasks := along_asks_longRecordRun hcap hpos hsum hbefore
        have hfails := not_along_delivers_longRecordRun hcap hpos hsum hbefore hlong
        exact hfails (h _ (enqueuedSizes_longRecordRun first before size after) hasks)
  · intro hbefore ops hops hasks
    have hstart := Log.straight_start hcap
    refine hstart.along_delivers ?_ ?_ hasks
    · rw [hops]
      change 0 + sizes.sum ≤ cap.toNat
      omega
    · rw [hops]
      exact hbefore

theorem records_delivered_iff_three :
    (∀ ops, enqueuedSizes ops = [2, 2, 4] → Along Log.step Asks (Log.start 8) ops →
        Along Log.step Delivers (Log.start 8) ops) ↔ AtMostBefore 0 [2, 2, 4] :=
  records_delivered_iff ⟨3, rfl⟩ [2, 2, 4] (by decide) (by decide)

/-- Three bytes behind two go over them, although eight would have held both. -/
theorem second_record_overwrites_first :
    ¬∀ (cap : UInt64) (sizes : List Nat), IsPow2 cap → (∀ size ∈ sizes, 0 < size) →
      sizes.sum ≤ cap.toNat → ∀ ops, enqueuedSizes ops = sizes →
        Along Log.step Asks (Log.start cap) ops →
          Along Log.step Delivers (Log.start cap) ops := by
  intro h
  have hrun := h 8 [2, 3] ⟨3, rfl⟩ (by decide) (by decide)
    [.enqueue [1, 2], .enqueue [3, 4, 5], .dequeue 2] rfl (by decide +kernel)
  revert hrun
  decide +kernel

end Doctrina.Deque
