import Doctrina.Deque.Runs
import Mathlib.Data.List.Induction
/-!
# What the indices say about the content

Modulo the word size the reader's indices always count the bytes accepted and
not yet returned, whatever the writer does.  The size that the buffer reports
is taken from the writer's head instead, and is right only until the head goes
back to 0.
-/

namespace Doctrina.Deque

open Doctrina.Lib.Execution Doctrina.Lib.Ring Doctrina.Lib.Word64

/-! ## The reader's indices, for all capacities and sizes -/

/-- Bytes accepted less bytes returned, modulo the word size. -/
def Log.available (log : Log) : Int :=
  ((log.acceptedBytes : Int) - log.returnedBytes) % 2 ^ 64

/-- The reader's indices are as far apart as the balance of the log. -/
def Log.Balanced (log : Log) : Prop :=
  ringBufferReaderCapacity log.buffer =
    UInt64.ofNat log.acceptedBytes - UInt64.ofNat log.returnedBytes

theorem readerCapacity_rewind (self : RingBuffer) (size : UInt64) :
    ringBufferReaderCapacity (ringBufferRewind self size) = ringBufferReaderCapacity self := by
  simp [ringBufferReaderCapacity]

theorem readerCapacity_accept (self : RingBuffer) (data : List UInt8) (size : UInt64) :
    ringBufferReaderCapacity (ringBufferAccept self data size) =
      ringBufferReaderCapacity self + size := by
  simp only [ringBufferReaderCapacity, reader_accept]
  grind

theorem readerCapacity_decrement (self : RingBuffer) (size : UInt64) :
    ringBufferReaderCapacity (ringBufferDecrement self size) =
      ringBufferReaderCapacity self - size := by
  simp only [ringBufferReaderCapacity, ringBufferDecrement]
  grind

/-- A reset jumps from one empty range to another. -/
theorem readerCapacity_tryReset (self : RingBuffer) :
    ringBufferReaderCapacity (ringBufferTryReset self) = ringBufferReaderCapacity self := by
  unfold ringBufferTryReset
  split
  · rename_i heq
    simp [ringBufferReaderCapacity, heq]
  · rfl

theorem acceptedBytes_append (buffer : RingBuffer) (accepted returned : List (List UInt8))
    (item : List UInt8) : Log.acceptedBytes ⟨buffer, accepted ++ [item], returned⟩ =
      Log.acceptedBytes ⟨buffer, accepted, returned⟩ + item.length := by
  simp [Log.acceptedBytes]

theorem returnedBytes_append (buffer : RingBuffer) (accepted returned : List (List UInt8))
    (item : List UInt8) : Log.returnedBytes ⟨buffer, accepted, returned ++ [item]⟩ =
      Log.returnedBytes ⟨buffer, accepted, returned⟩ + item.length := by
  simp [Log.returnedBytes]

namespace Log

variable {log : Log}

theorem step_enqueue_cases (log : Log) (item : List UInt8) :
    log.step (.enqueue item) = log ∨
    log.step (.enqueue item) =
      { log with buffer := ringBufferRewind log.buffer (.ofNat item.length) } ∨
    log.step (.enqueue item) =
      { log with
        buffer := ringBufferAccept (ringBufferRewind log.buffer (.ofNat item.length)) item
          (.ofNat item.length)
        accepted := log.accepted ++ [item] } := by
  rcases enqueue_cases log.buffer item (.ofNat item.length) with
    ⟨_, heq⟩ | ⟨_, _, heq⟩ | ⟨_, _, heq⟩
  · left
    simp [Log.step, heq]
  · right
    left
    simp [Log.step, heq]
  · right
    right
    simp [Log.step, heq]

theorem step_dequeue_cases (log : Log) (size : UInt64) :
    (ringBufferReaderCapacity log.buffer < size ∧ log.step (.dequeue size) = log) ∨
    (size ≤ ringBufferReaderCapacity log.buffer ∧ ∃ data, data.length = size.toNat ∧
      log.step (.dequeue size) =
        { log with
          buffer := ringBufferTryReset (ringBufferDecrement log.buffer size)
          returned := log.returned ++ [data] }) := by
  rcases dequeue_cases log.buffer size with ⟨hlt, heq⟩ | ⟨hle, heq⟩
  · left
    refine ⟨hlt, ?_⟩
    simp [Log.step, heq]
  · right
    refine ⟨hle, _, length_readAt log.buffer.data
      (ringBufferMask log.buffer log.buffer.reader.head).toNat size.toNat, ?_⟩
    simp [Log.step, heq]

theorem Balanced.step (h : log.Balanced) (op : Op) : (log.step op).Balanced := by
  unfold Balanced at h ⊢
  cases op with
  | enqueue item =>
      rcases log.step_enqueue_cases item with heq | heq | heq
      · rw [heq]
        exact h
      · rw [heq, readerCapacity_rewind]
        exact h
      · rw [heq, readerCapacity_accept, readerCapacity_rewind, h, acceptedBytes_append,
          UInt64.ofNat_add]
        simp only [Log.acceptedBytes, Log.returnedBytes]
        grind
  | dequeue size =>
      rcases log.step_dequeue_cases size with ⟨_, heq⟩ | ⟨_, data, hlen, heq⟩
      · rw [heq]
        exact h
      · rw [heq, readerCapacity_tryReset, readerCapacity_decrement, h, returnedBytes_append,
          hlen, UInt64.ofNat_add, UInt64.ofNat_toNat]
        simp only [Log.acceptedBytes, Log.returnedBytes]
        grind

theorem balanced_run (cap : UInt64) (ops : List Op) : (Log.run cap ops).Balanced := by
  have hstart : (Log.start cap).Balanced := by
    simp [Balanced, Log.start, ringBufferCreate, ringBufferReaderCapacity, Log.acceptedBytes,
      Log.returnedBytes]
  exact invariant_foldl (fun _ op h _ => h.step op) hstart
    (along_of_forall (R := fun _ => True) fun _ _ => trivial)

theorem Balanced.toNat_readerCapacity (h : log.Balanced) :
    ((ringBufferReaderCapacity log.buffer).toNat : Int) = log.available := by
  rw [h, UInt64.toNat_sub, UInt64.toNat_ofNat', UInt64.toNat_ofNat', available]
  omega

end Log

/-- Whatever a run has enqueued and dequeued, a dequeue finds nothing to return
exactly if it asks for more than the bytes accepted less the bytes returned, and
then leaves the buffer as it is; what it does return is as long as it asks for. -/
theorem dequeue_availability (cap : UInt64) (ops : List Op) :
    ((ringBufferReaderCapacity (Log.run cap ops).buffer).toNat : Int) =
        (Log.run cap ops).available ∧
      ∀ n, ((ringBufferDequeue (Log.run cap ops).buffer n).2 = none ↔
          (Log.run cap ops).available < n.toNat) ∧
        ((ringBufferDequeue (Log.run cap ops).buffer n).2 = none →
          (ringBufferDequeue (Log.run cap ops).buffer n).1 = (Log.run cap ops).buffer) ∧
        ∀ data, (ringBufferDequeue (Log.run cap ops).buffer n).2 = some data →
          data.length = n.toNat := by
  have hbalance := (Log.balanced_run cap ops).toNat_readerCapacity
  refine ⟨hbalance, fun n => ?_⟩
  rw [← hbalance, Int.ofNat_lt, ← UInt64.lt_iff_toNat_lt]
  rcases dequeue_cases (Log.run cap ops).buffer n with ⟨hlt, heq⟩ | ⟨hle, heq⟩
  · simp [heq, hlt]
  · simp [heq, UInt64.not_lt.mpr hle]

/-! ## Where the copies of one size lie -/

/-- The copy that an operation makes, if it makes one, fills a slot of the
buffer. -/
def CopiesSlot (size : UInt64) (log : Log) : Op → Prop
  | .enqueue item =>
      (ringBufferEnqueue log.buffer item (.ofNat item.length)).2 = 0 →
        (ringBufferEnqueue log.buffer item (.ofNat item.length)).1.data =
            writeAt log.buffer.data (enqueueOffset log.buffer size) item ∧
          size.toNat ∣ enqueueOffset log.buffer size ∧
          enqueueOffset log.buffer size + size.toNat ≤ log.buffer.cap.toNat
  | .dequeue n =>
      ∀ data, (ringBufferDequeue log.buffer n).2 = some data →
        data = readAt log.buffer.data (dequeueOffset log.buffer) size.toNat ∧
          size.toNat ∣ dequeueOffset log.buffer ∧
          dequeueOffset log.buffer + size.toNat ≤ log.buffer.cap.toNat

section OneSize

variable {cap size : UInt64}

theorem ofNat_length {item : List UInt8} (h : item.length = size.toNat) :
    UInt64.ofNat item.length = size := by
  rw [h]
  exact UInt64.ofNat_toNat

theorem Aligned.step {log : Log} {op : Op} (h : Aligned log.buffer size)
    (hop : op.HasSize size) : Aligned (log.step op).buffer size := by
  cases op with
  | enqueue item =>
      simp only [Log.step, ofNat_length hop]
      exact h.enqueue item
  | dequeue n =>
      have hn : n = size := hop
      subst hn
      exact h.dequeue

theorem Aligned.copiesSlot {log : Log} {op : Op} (h : Aligned log.buffer size)
    (hop : op.HasSize size) : CopiesSlot size log op := by
  cases op with
  | enqueue item =>
      intro hcode
      rw [ofNat_length hop] at hcode ⊢
      refine ⟨?_, h.enqueueOffset_slot⟩
      rw [data_enqueue hcode, List.take_of_length_le hop.le]
  | dequeue n =>
      have hn : n = size := hop
      subst hn
      exact fun data hdata => ⟨dequeue_eq_some hdata, h.dequeueOffset_slot⟩

/-- In every state that items of one size lead to, the indices are multiples of
the size and the writer's head is at most `cap`, and every copy on the way there
fills a slot of the buffer. -/
theorem indices_stay_aligned (hcap : IsPow2 cap) (hsize : 0 < size.toNat)
    (hdvd : size.toNat ∣ cap.toNat) (ops : List Op) (hops : ∀ op ∈ ops, op.HasSize size) :
    Aligned (Log.run cap ops).buffer size ∧ (Log.run cap ops).buffer.cap = cap ∧
      Along Log.step (CopiesSlot size) (Log.start cap) ops := by
  have hstart : Aligned (Log.start cap).buffer size ∧ (Log.start cap).buffer.cap = cap :=
    ⟨aligned_create hcap hsize hdvd, rfl⟩
  have hstep : ∀ (log : Log) (op : Op), Aligned log.buffer size ∧ log.buffer.cap = cap →
      op.HasSize size → Aligned (log.step op).buffer size ∧ (log.step op).buffer.cap = cap := by
    intro log op h hop
    refine ⟨h.1.step hop, ?_⟩
    cases op with
    | enqueue item => simp [Log.step, h.2]
    | dequeue n => simp [Log.step, h.2]
  have hall : Along Log.step (fun _ op => op.HasSize size) (Log.start cap) ops :=
    along_of_forall hops
  have hend := invariant_foldl hstep hstart hall
  exact ⟨hend.1, hend.2, along_mono hstep (fun _ _ h hop => h.1.copiesSlot hop) hstart hall⟩

end OneSize

/-- Two-byte items in eight bytes, the writer past its end and refused there. -/
theorem indices_stay_aligned_lap :
    Aligned (Log.run 8 [.enqueue [1, 2], .enqueue [3, 4], .enqueue [5, 6], .dequeue 2,
        .enqueue [7, 8], .enqueue [9, 10], .enqueue [11, 12], .dequeue 2]).buffer 2 ∧
      (Log.run 8 [.enqueue [1, 2], .enqueue [3, 4], .enqueue [5, 6], .dequeue 2,
        .enqueue [7, 8], .enqueue [9, 10], .enqueue [11, 12], .dequeue 2]).buffer.cap = 8 ∧
      Along Log.step (CopiesSlot 2) (Log.start 8)
        [.enqueue [1, 2], .enqueue [3, 4], .enqueue [5, 6], .dequeue 2,
          .enqueue [7, 8], .enqueue [9, 10], .enqueue [11, 12], .dequeue 2] :=
  @indices_stay_aligned 8 2 ⟨3, rfl⟩ (by decide) (by decide) _ (by decide)

/-! ## The reported size -/

/-- The reported size is what was accepted and not yet returned, and no more
than the buffer has room for. -/
def SizeRight (log : Log) : Prop :=
  (ringBufferSize log.buffer).toNat + log.returnedBytes = log.acceptedBytes ∧
    ringBufferSize log.buffer ≤ log.buffer.cap

instance : DecidablePred SizeRight := fun _ => inferInstanceAs (Decidable (_ ∧ _))

def Op.isEnqueue : Op → Bool
  | .enqueue _ => true
  | .dequeue _ => false

def enqueues (ops : List Op) : Nat := ops.countP Op.isEnqueue

/-- The states before the writer's head goes back to 0 for the first time, after
`count` enqueues. -/
structure FirstLap (cap size : UInt64) (log : Log) (count : Nat) : Prop where
  aligned : Aligned log.buffer size
  cap_eq : log.buffer.cap = cap
  head : log.buffer.writer.head.toNat = count * size.toNat
  reader_tail : log.buffer.reader.tail = log.buffer.writer.head
  reader_head : log.buffer.reader.head.toNat ≤ log.buffer.writer.head.toNat
  tail_of_lt : log.buffer.writer.head.toNat < cap.toNat → log.buffer.writer.tail = cap
  tail_of_eq : log.buffer.writer.head.toNat = cap.toNat →
    log.buffer.writer.tail.toNat < cap.toNat
  content : log.buffer.writer.head.toNat + log.returnedBytes =
    log.buffer.reader.head.toNat + log.acceptedBytes

theorem firstLap_start {cap size : UInt64} (hcap : IsPow2 cap) (hsize : 0 < size.toNat)
    (hdvd : size.toNat ∣ cap.toNat) : FirstLap cap size (Log.start cap) 0 where
  aligned := aligned_create hcap hsize hdvd
  cap_eq := rfl
  head := (Nat.zero_mul _).symm
  reader_tail := rfl
  reader_head := Nat.le_refl _
  tail_of_lt _ := rfl
  tail_of_eq h := absurd h (Nat.ne_of_lt hcap.pos)
  content := rfl

namespace FirstLap

variable {cap size : UInt64} {log : Log} {count : Nat}

theorem sizeRight (h : FirstLap cap size log count) : SizeRight log := by
  have hle := h.reader_head
  have hwh := h.aligned.wh_le
  have hcontent := h.content
  have hsub : (ringBufferSize log.buffer).toNat =
      log.buffer.writer.head.toNat - log.buffer.reader.head.toNat := toNat_sub_of_le hle
  refine ⟨by omega, ?_⟩
  rw [UInt64.le_iff_toNat_le]
  omega

theorem rewind_eq (h : FirstLap cap size log count)
    (hlt : log.buffer.writer.head.toNat < cap.toNat) :
    ringBufferRewind log.buffer size = log.buffer := by
  have hne : log.buffer.writer.head.toNat ≠ log.buffer.cap.toNat := by
    rw [h.cap_eq]
    omega
  have hhead : (ringBufferRewind log.buffer size).writer.head = log.buffer.writer.head := by
    apply UInt64.toNat_inj.mp
    rw [h.aligned.writer_head_rewind, if_neg hne]
  have hmod : log.buffer.writer.head % log.buffer.cap = log.buffer.writer.head := by
    apply UInt64.toNat_inj.mp
    rw [UInt64.toNat_mod, h.cap_eq, Nat.mod_eq_of_lt hlt]
  by_cases hgoes : log.buffer.writer.head % log.buffer.cap < size
  · rw [rewind_of_lt hgoes] at hhead ⊢
    change 0 = log.buffer.writer.head at hhead
    rw [hhead]
  · exact rewind_of_le (UInt64.not_lt.mp hgoes)

theorem step_enqueue (h : FirstLap cap size log count)
    (hlt : log.buffer.writer.head.toNat < cap.toNat) {item : List UInt8}
    (hitem : item.length = size.toNat) :
    log.step (.enqueue item) =
      ⟨ringBufferAccept log.buffer item size, log.accepted ++ [item], log.returned⟩ := by
  have hlt' : log.buffer.writer.head.toNat < log.buffer.cap.toNat := by
    rwa [h.cap_eq]
  have hfits := h.aligned.head_add_le hlt'
  have hroom : size ≤ ringBufferWriterCapacity log.buffer := by
    rw [UInt64.le_iff_toNat_le, ringBufferWriterCapacity, h.tail_of_lt hlt,
      toNat_sub_of_le hlt.le]
    rw [h.cap_eq] at hfits
    omega
  simp only [Log.step, ofNat_length hitem]
  rcases enqueue_cases log.buffer item size with ⟨hfull, _⟩ | ⟨_, hfull, _⟩ | ⟨_, _, heq⟩
  · exact absurd hfull (UInt64.not_lt.mpr hroom)
  · rw [h.rewind_eq hlt] at hfull
    exact absurd hfull (UInt64.not_lt.mpr hroom)
  · rw [heq, h.rewind_eq hlt]
    rfl

theorem enqueue (h : FirstLap cap size log count)
    (hlt : log.buffer.writer.head.toNat < cap.toNat) {item : List UInt8}
    (hitem : item.length = size.toNat) :
    FirstLap cap size (log.step (.enqueue item)) (count + 1) := by
  have hlt' : log.buffer.writer.head.toNat < log.buffer.cap.toNat := by
    rwa [h.cap_eq]
  have hhead := h.aligned.toNat_head_add hlt'
  have hpos := h.aligned.size_pos
  have hle := h.reader_head
  have hcontent := h.content
  rw [h.step_enqueue hlt hitem]
  refine ⟨h.aligned.accept hlt' item, ?_, ?_, ?_, ?_, ?_, ?_, ?_⟩
  · simpa using h.cap_eq
  · rw [writer_head_accept, hhead, h.head, Nat.add_mul, Nat.one_mul]
  · simp [h.reader_tail]
  · simp only [reader_accept, writer_head_accept, hhead]
    omega
  · intro hbelow
    rw [writer_head_accept] at hbelow
    have hne : log.buffer.writer.head + size ≠ cap := fun heq =>
      absurd hbelow (by rw [heq]; exact Nat.lt_irrefl _)
    rw [writer_tail_accept, h.tail_of_lt hlt, if_neg hne]
  · intro hend
    rw [writer_head_accept] at hend
    rw [writer_tail_accept, h.tail_of_lt hlt, if_pos (UInt64.toNat_inj.mp hend)]
    omega
  · rw [acceptedBytes_append, writer_head_accept, reader_accept, hhead, hitem]
    simp only [Log.acceptedBytes, Log.returnedBytes] at hcontent ⊢
    omega

theorem dequeue (h : FirstLap cap size log count) :
    FirstLap cap size (log.step (.dequeue size)) count := by
  rcases log.step_dequeue_cases size with ⟨_, heq⟩ | ⟨hle, data, hlen, heq⟩
  · rw [heq]
    exact h
  have hreader := h.reader_head
  have hcontent := h.content
  have hword := log.buffer.writer.head.toNat_lt
  rw [UInt64.le_iff_toNat_le, ringBufferReaderCapacity, h.reader_tail,
    toNat_sub_of_le hreader] at hle
  have hnext : (log.buffer.reader.head + size).toNat =
      log.buffer.reader.head.toNat + size.toNat := toNat_add_of_lt (by omega)
  rw [heq]
  refine ⟨h.aligned.decrement.tryReset, ?_, ?_, ?_, ?_, ?_, ?_, ?_⟩
  · simpa [ringBufferDecrement] using h.cap_eq
  · simpa [ringBufferDecrement] using h.head
  · unfold ringBufferTryReset
    split
    · rfl
    · exact h.reader_tail
  · unfold ringBufferTryReset
    split
    · exact Nat.le_refl _
    · simp only [ringBufferDecrement, hnext]
      omega
  · simpa [ringBufferDecrement] using h.tail_of_lt
  · simpa [ringBufferDecrement] using h.tail_of_eq
  · rw [returnedBytes_append, hlen]
    simp only [Log.acceptedBytes, Log.returnedBytes] at hcontent ⊢
    unfold ringBufferTryReset
    split
    · rename_i hmet
      simp only [ringBufferDecrement, h.reader_tail] at hmet ⊢
      rw [← hmet, hnext] at hcontent ⊢
      omega
    · simp only [ringBufferDecrement, hnext]
      omega

/-- At the end of the buffer the next enqueue takes the head back to 0, and the
size is wrong whether or not the item is accepted. -/
theorem not_sizeRight (h : FirstLap cap size log count)
    (hend : log.buffer.writer.head.toNat = cap.toNat) {item : List UInt8}
    (hitem : item.length = size.toNat) : ¬SizeRight (log.step (.enqueue item)) := by
  intro hright
  have hreader := h.reader_head
  have hcontent := h.content
  have hwt := h.tail_of_eq hend
  have hpos := h.aligned.size_pos
  have hsize := h.aligned.size_le_cap
  have htwo := h.aligned.cap_pow.two_mul_le
  rw [h.cap_eq] at hsize htwo
  have hzero : (ringBufferRewind log.buffer size).writer.head = 0 := by
    apply UInt64.toNat_inj.mp
    rw [h.aligned.writer_head_rewind, h.cap_eq, if_pos hend]
    rfl
  have hsum := hright.1
  simp only [Log.step, ofNat_length hitem] at hsum
  rcases enqueue_cases log.buffer item size with ⟨hlt, _⟩ | ⟨_, _, heq⟩ | ⟨_, _, heq⟩
  · rw [UInt64.lt_iff_toNat_lt, ringBufferWriterCapacity,
      toNat_sub_of_lt (by omega), hend] at hlt
    omega
  · have hcode : ¬(-1 : Int) = 0 := by decide
    simp only [heq, ringBufferSize, hzero, reader_rewind, UInt64.toNat_sub, UInt64.toNat_zero,
      Log.acceptedBytes, Log.returnedBytes, if_neg hcode] at hsum hcontent
    omega
  · simp only [heq, ringBufferSize, writer_head_accept, hzero, reader_accept, reader_rewind,
      UInt64.toNat_sub, UInt64.zero_add, Log.acceptedBytes, Log.returnedBytes, if_true,
      List.flatten_append, List.length_append, List.flatten_cons, List.flatten_nil,
      List.append_nil, hitem] at hsum hcontent
    omega

end FirstLap

section OneSize

variable {cap size : UInt64}

theorem run_append_singleton (cap : UInt64) (ops : List Op) (op : Op) :
    Log.run cap (ops ++ [op]) = (Log.run cap ops).step op := by
  rw [Log.run, List.foldl_append]
  rfl

theorem enqueues_append_singleton (ops : List Op) (op : Op) :
    enqueues (ops ++ [op]) = enqueues ops + if op.isEnqueue then 1 else 0 := by
  simp [enqueues, List.countP_append, List.countP_singleton]

theorem firstLap_run (hcap : IsPow2 cap) (hsize : 0 < size.toNat)
    (hdvd : size.toNat ∣ cap.toNat) {ops : List Op} (hops : ∀ op ∈ ops, op.HasSize size)
    (hcount : enqueues ops * size.toNat ≤ cap.toNat) :
    FirstLap cap size (Log.run cap ops) (enqueues ops) := by
  induction ops using List.reverseRecOn with
  | nil => exact firstLap_start hcap hsize hdvd
  | append_singleton ops op ih =>
      have hop := hops op (by simp)
      rw [enqueues_append_singleton] at hcount ⊢
      rw [run_append_singleton]
      cases op with
      | enqueue item =>
          simp only [Op.isEnqueue, if_true, Nat.add_mul, Nat.one_mul] at hcount ⊢
          have h := ih (fun op hop => hops op (by simp [hop])) (by omega)
          exact h.enqueue (by rw [h.head]; omega) hop
      | dequeue n =>
          have hn : n = size := hop
          subst hn
          simp only [Op.isEnqueue, Bool.false_eq_true, if_false, Nat.add_zero] at hcount ⊢
          exact (ih (fun op hop => hops op (by simp [hop])) hcount).dequeue

/-- The reported size is right in every state of a run of `size`-byte items if
and only if the run has no more enqueues than the buffer has slots. -/
theorem size_right_iff (hcap : IsPow2 cap) (hsize : 0 < size.toNat)
    (hdvd : size.toNat ∣ cap.toNat) (ops : List Op) (hops : ∀ op ∈ ops, op.HasSize size) :
    (∀ before after, ops = before ++ after → SizeRight (Log.run cap before)) ↔
      enqueues ops * size.toNat ≤ cap.toNat := by
  constructor
  · intro h
    induction ops using List.reverseRecOn with
    | nil => simp [enqueues]
    | append_singleton ops op ih =>
        have hold := ih (fun op hop => hops op (by simp [hop])) fun before after hsplit =>
          h before (after ++ [op]) (by rw [hsplit, List.append_assoc])
        have hop := hops op (by simp)
        have hright := h (ops ++ [op]) [] (by simp)
        have hlap := firstLap_run hcap hsize hdvd (fun op hop => hops op (by simp [hop])) hold
        rw [enqueues_append_singleton]
        cases op with
        | dequeue n => simpa [Op.isEnqueue] using hold
        | enqueue item =>
            simp only [Op.isEnqueue, if_true, Nat.add_mul, Nat.one_mul]
            -- another enqueue at the end of the buffer would have spoilt the size
            have hne : enqueues ops * size.toNat ≠ cap.toNat := by
              intro hend
              rw [run_append_singleton] at hright
              exact hlap.not_sizeRight (hlap.head.trans hend) hop hright
            exact add_le_of_dvd_of_lt (Nat.dvd_mul_left _ _) hdvd (Nat.lt_of_le_of_ne hold hne)
  · rintro h before after rfl
    have hcount : enqueues before ≤ enqueues (before ++ after) := by
      simp [enqueues, List.countP_append]
    have hle := Nat.mul_le_mul_right size.toNat hcount
    have hbefore : ∀ op ∈ before, op.HasSize size := fun op hop =>
      hops op (List.mem_append_left after hop)
    exact (firstLap_run hcap hsize hdvd hbefore (hle.trans h)).sizeRight

end OneSize

theorem size_right_iff_fill_drain :
    (∀ before after,
        [.enqueue [55], .enqueue [56], .dequeue 1, .enqueue [57], .enqueue [58], .dequeue 1,
          .dequeue 1, .dequeue 1] = before ++ after → SizeRight (Log.run 4 before)) ↔
      enqueues [.enqueue [55], .enqueue [56], .dequeue 1, .enqueue [57], .enqueue [58],
        .dequeue 1, .dequeue 1, .dequeue 1] * (1 : UInt64).toNat ≤ (4 : UInt64).toNat :=
  @size_right_iff 4 1 ⟨2, rfl⟩ (by decide) (by decide) _ (by decide)

/-- A full buffer drained by one byte refuses the next enqueue, and reports a
size of 2 ^ 64 - 1 for the three bytes it holds. -/
theorem size_wraps_on_refusal :
    ¬∀ cap size : UInt64, IsPow2 cap → 0 < size.toNat → size.toNat ∣ cap.toNat →
      ∀ ops : List Op, (∀ op ∈ ops, op.HasSize size) → SizeRight (Log.run cap ops) := by
  intro h
  have hrun := h 4 1 ⟨2, rfl⟩ (by decide) (by decide)
    [.enqueue [1], .enqueue [2], .enqueue [3], .enqueue [4], .dequeue 1,
      .enqueue [5]] (by decide)
  revert hrun
  decide +kernel

end Doctrina.Deque
