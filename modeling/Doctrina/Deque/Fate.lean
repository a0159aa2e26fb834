import Doctrina.Deque.Accounting
/-!
# What becomes of a buffer of items of one size

Two states are final.  A blocked writer stays blocked whatever is dequeued, and
a tail past the end of the buffer is never met again.  The answers to the
enqueues of a run are therefore some acceptances and then refusals only.
-/

namespace Doctrina.Deque

open Doctrina.Lib.Execution Doctrina.Lib.Word64

/-- What the enqueues of a run return, in order. -/
def verdicts : Log → List Op → List Int
  | _, [] => []
  | log, .enqueue item :: ops =>
      (ringBufferEnqueue log.buffer item (.ofNat item.length)).2 ::
        verdicts (log.step (.enqueue item)) ops
  | log, .dequeue n :: ops => verdicts (log.step (.dequeue n)) ops

/-- The writer's tail lies past the end of the buffer. -/
def Escaped (buf : RingBuffer) : Prop := buf.cap < buf.writer.tail

instance : DecidablePred Escaped := fun buf =>
  inferInstanceAs (Decidable (buf.cap < buf.writer.tail))

namespace Aligned

variable {buf : RingBuffer} {size : UInt64} (h : Aligned buf size)

include h

theorem room_iff : size ≤ ringBufferWriterCapacity buf ↔
    buf.writer.head.toNat ≠ buf.writer.tail.toNat := by
  have hsub : (buf.writer.tail - buf.writer.head).toNat =
      (2 ^ 64 - buf.writer.head.toNat + buf.writer.tail.toNat) % 2 ^ 64 := UInt64.toNat_sub _ _
  have hdvd : size.toNat ∣ (buf.writer.tail - buf.writer.head).toNat := by
    rw [hsub, Nat.dvd_mod_iff h.size_dvd_radix]
    exact Nat.dvd_add (Nat.dvd_sub h.size_dvd_radix h.wh_dvd) h.wt_dvd
  have hpos := h.size_pos
  rw [UInt64.le_iff_toNat_le, ringBufferWriterCapacity]
  constructor
  · intro hroom heq
    rw [toNat_sub_eq_zero.mpr (UInt64.toNat_inj.mp heq)] at hroom
    omega
  · intro hne
    apply Nat.le_of_dvd _ hdvd
    apply Nat.pos_of_ne_zero
    intro hzero
    exact hne (congrArg UInt64.toNat (toNat_sub_eq_zero.mp hzero))

theorem writerBlocked_iff : WriterBlocked buf ↔
    buf.writer.head.toNat = buf.writer.tail.toNat ∨
      (ringBufferRewind buf size).writer.head.toNat = buf.writer.tail.toNat := by
  have hblocked : WriterBlocked buf ↔
      buf.writer.head.toNat = buf.writer.tail.toNat ∨
        buf.writer.head.toNat = buf.cap.toNat ∧ buf.writer.tail.toNat = 0 := by
    simp only [WriterBlocked, ← UInt64.toNat_inj, UInt64.toNat_zero]
  rw [hblocked, h.writer_head_rewind]
  split <;> omega

theorem enqueue_verdict (item : List UInt8) :
    (WriterBlocked buf ∧ (ringBufferEnqueue buf item size).2 = -1 ∧
      WriterBlocked (ringBufferEnqueue buf item size).1) ∨
    (¬WriterBlocked buf ∧ ringBufferEnqueue buf item size =
      (ringBufferAccept (ringBufferRewind buf size) item size, 0)) := by
  have hfirst := h.room_iff
  have hsecond := h.rewind.room_iff
  rw [writer_tail_rewind] at hsecond
  rw [h.writerBlocked_iff]
  rcases enqueue_cases buf item size with
    ⟨hlt, heq⟩ | ⟨hroom, hlt, heq⟩ | ⟨hroom, hroom', heq⟩
  · have hmet := hfirst.not.mp (UInt64.not_le.mpr hlt)
    rw [not_not] at hmet
    exact .inl ⟨.inl hmet, by rw [heq], by rw [heq, h.writerBlocked_iff]; exact .inl hmet⟩
  · have hmet := hsecond.not.mp (UInt64.not_le.mpr hlt)
    rw [not_not] at hmet
    refine .inl ⟨.inr hmet, by rw [heq], ?_⟩
    rw [heq, h.rewind.writerBlocked_iff, writer_tail_rewind]
    exact .inl hmet
  · right
    refine ⟨?_, heq⟩
    rintro (hmet | hmet)
    · exact hfirst.mp hroom hmet
    · exact hsecond.mp hroom' hmet

theorem enqueue_blocked (hblocked : WriterBlocked buf) (item : List UInt8) :
    (ringBufferEnqueue buf item size).2 = -1 ∧
      WriterBlocked (ringBufferEnqueue buf item size).1 := by
  rcases h.enqueue_verdict item with ⟨_, hrefused⟩ | ⟨hfree, _⟩
  · exact hrefused
  · exact absurd hblocked hfree

theorem enqueue_escaped (hescaped : Escaped buf) (item : List UInt8) :
    (ringBufferEnqueue buf item size).2 = 0 ∧ Escaped (ringBufferEnqueue buf item size).1 := by
  have hpast : buf.cap.toNat < buf.writer.tail.toNat := UInt64.lt_iff_toNat_lt.mp hescaped
  have hwh := h.wh_le
  have hhead := h.writer_head_lt_rewind
  rcases h.enqueue_verdict item with ⟨hblocked, _⟩ | ⟨_, heq⟩
  · rw [h.writerBlocked_iff] at hblocked
    omega
  · rw [heq]
    refine ⟨rfl, ?_⟩
    have hlt : (ringBufferRewind buf size).writer.head.toNat <
        (ringBufferRewind buf size).cap.toNat := by rwa [cap_rewind]
    have hle := h.rewind.head_add_le hlt
    have hadd := h.rewind.toNat_head_add hlt
    rw [cap_rewind] at hle
    have hne : (ringBufferRewind buf size).writer.head + size ≠
        (ringBufferRewind buf size).writer.tail := by
      intro hmet
      rw [← UInt64.toNat_inj, hadd, writer_tail_rewind] at hmet
      omega
    rw [Escaped, cap_accept, cap_rewind, writer_tail_accept, if_neg hne, writer_tail_rewind]
    exact hescaped

end Aligned

theorem writer_dequeue (buf : RingBuffer) (size : UInt64) :
    (ringBufferDequeue buf size).1.writer = buf.writer := by
  rcases dequeue_cases buf size with ⟨_, heq⟩ | ⟨_, heq⟩
  · rw [heq]
  · rw [heq, writer_tryReset]
    rfl

theorem dequeue_blocked {buf : RingBuffer} (h : WriterBlocked buf) (size : UInt64) :
    WriterBlocked (ringBufferDequeue buf size).1 := by
  rw [WriterBlocked, writer_dequeue, cap_dequeue]
  exact h

theorem dequeue_escaped {buf : RingBuffer} (h : Escaped buf) (size : UInt64) :
    Escaped (ringBufferDequeue buf size).1 := by
  rw [Escaped, writer_dequeue, cap_dequeue]
  exact h

section Runs

variable {size : UInt64} {log : Log}

theorem verdicts_of_final {Final : RingBuffer → Prop} {code : Int}
    (henqueue : ∀ buf item, Aligned buf size → Final buf →
      (ringBufferEnqueue buf item size).2 = code ∧ Final (ringBufferEnqueue buf item size).1)
    (hdequeue : ∀ buf, Final buf → Final (ringBufferDequeue buf size).1)
    {ops : List Op} (h : Aligned log.buffer size) (hfinal : Final log.buffer)
    (hops : ∀ op ∈ ops, op.HasSize size) :
    verdicts log ops = List.replicate (enqueues ops) code := by
  induction ops generalizing log with
  | nil => rfl
  | cons op ops ih =>
      have hrest : ∀ op ∈ ops, op.HasSize size := fun op hop => hops op (by simp [hop])
      have hop := hops op (by simp)
      have haligned : Aligned (log.step op).buffer size := h.step hop
      cases op with
      | enqueue item =>
          obtain ⟨hcode, hnext⟩ := henqueue log.buffer item h hfinal
          have hstep : Final (log.step (.enqueue item)).buffer := by
            rwa [Log.step, ofNat_length hop]
          rw [verdicts, ofNat_length hop, hcode, ih haligned hstep hrest, enqueues, enqueues,
            List.countP_cons]
          rfl
      | dequeue n =>
          have hn : n = size := hop
          subst hn
          have hstep : Final (log.step (.dequeue n)).buffer := hdequeue log.buffer hfinal
          rw [verdicts, ih haligned hstep hrest, enqueues, enqueues, List.countP_cons]
          rfl

theorem verdicts_blocked {ops : List Op} (h : Aligned log.buffer size)
    (hblocked : WriterBlocked log.buffer) (hops : ∀ op ∈ ops, op.HasSize size) :
    verdicts log ops = List.replicate (enqueues ops) (-1) :=
  verdicts_of_final (fun _ item h hblocked => h.enqueue_blocked hblocked item)
    (fun _ hblocked => dequeue_blocked hblocked size) h hblocked hops

theorem verdicts_escaped {ops : List Op} (h : Aligned log.buffer size)
    (hescaped : Escaped log.buffer) (hops : ∀ op ∈ ops, op.HasSize size) :
    verdicts log ops = List.replicate (enqueues ops) 0 :=
  verdicts_of_final (fun _ item h hescaped => h.enqueue_escaped hescaped item)
    (fun _ hescaped => dequeue_escaped hescaped size) h hescaped hops

theorem Aligned.verdicts_split {ops : List Op} (h : Aligned log.buffer size)
    (hops : ∀ op ∈ ops, op.HasSize size) :
    ∃ k j, verdicts log ops = List.replicate k 0 ++ List.replicate j (-1) := by
  induction ops generalizing log with
  | nil => exact ⟨0, 0, rfl⟩
  | cons op ops ih =>
      have hrest : ∀ op ∈ ops, op.HasSize size := fun op hop => hops op (by simp [hop])
      have hop := hops op (by simp)
      obtain ⟨k, j, hsplit⟩ := ih (h.step hop) hrest
      cases op with
      | dequeue n => exact ⟨k, j, hsplit⟩
      | enqueue item =>
          rcases h.enqueue_verdict item with ⟨hblocked, _⟩ | ⟨_, heq⟩
          · exact ⟨0, _, verdicts_blocked h hblocked hops⟩
          · refine ⟨k + 1, j, ?_⟩
            rw [verdicts, ofNat_length hop, heq, hsplit, List.replicate_succ, List.cons_append]

theorem FirstLap.not_blocked {cap : UInt64} {count : Nat} (h : FirstLap cap size log count)
    (hlt : log.buffer.writer.head.toNat < cap.toNat) : ¬WriterBlocked log.buffer := by
  rw [WriterBlocked, h.tail_of_lt hlt, h.cap_eq]
  intro hblocked
  have hend : log.buffer.writer.head = cap := hblocked.elim id And.left
  rw [hend] at hlt
  exact Nat.lt_irrefl _ hlt

theorem FirstLap.verdicts_split {cap : UInt64} {count : Nat} {ops : List Op}
    (h : FirstLap cap size log count) (hops : ∀ op ∈ ops, op.HasSize size) :
    ∃ k j, verdicts log ops = List.replicate k 0 ++ List.replicate j (-1) ∧
      (j = 0 ∨ cap.toNat ≤ (count + k) * size.toNat) := by
  induction ops generalizing log count with
  | nil => exact ⟨0, 0, rfl, .inl rfl⟩
  | cons op ops ih =>
      have hrest : ∀ op ∈ ops, op.HasSize size := fun op hop => hops op (by simp [hop])
      have hop := hops op (by simp)
      by_cases hlt : log.buffer.writer.head.toNat < cap.toNat
      · cases op with
        | dequeue n =>
            have hn : n = size := hop
            subst hn
            exact ih h.dequeue hrest
        | enqueue item =>
            obtain ⟨k, j, hsplit, hbound⟩ := ih (h.enqueue hlt hop) hrest
            rcases h.aligned.enqueue_verdict item with ⟨hblocked, _⟩ | ⟨_, heq⟩
            · exact absurd hblocked (h.not_blocked hlt)
            · refine ⟨k + 1, j, ?_, ?_⟩
              · rw [verdicts, ofNat_length hop, heq, hsplit, List.replicate_succ,
                  List.cons_append]
              · rwa [Nat.add_assoc, Nat.add_comm 1 k] at hbound
      · obtain ⟨k, j, hsplit⟩ := h.aligned.verdicts_split hops
        refine ⟨k, j, hsplit, .inr ?_⟩
        rw [h.head] at hlt
        rw [Nat.add_mul]
        omega

end Runs

section OneSize

variable {cap size : UInt64}

theorem verdicts_append (log : Log) (ops ops' : List Op) :
    verdicts log (ops ++ ops') = verdicts log ops ++ verdicts (ops.foldl Log.step log) ops' := by
  induction ops generalizing log with
  | nil => rfl
  | cons op ops ih =>
      cases op with
      | enqueue item => rw [List.cons_append, verdicts, ih, verdicts, List.cons_append]; rfl
      | dequeue n => rw [List.cons_append, verdicts, ih, verdicts]; rfl

theorem aligned_run (hcap : IsPow2 cap) (hsize : 0 < size.toNat)
    (hdvd : size.toNat ∣ cap.toNat) {ops : List Op} (hops : ∀ op ∈ ops, op.HasSize size) :
    Aligned (Log.run cap ops).buffer size := by
  have hstep : ∀ (log : Log) (op : Op), Aligned log.buffer size → op.HasSize size →
      Aligned (log.step op).buffer size := fun _ _ h hop => h.step hop
  have hstart : Aligned (Log.start cap).buffer size := aligned_create hcap hsize hdvd
  exact invariant_foldl hstep hstart (along_of_forall hops)

theorem blocked_run {log : Log} {ops : List Op} (h : Aligned log.buffer size)
    (hops : ∀ op ∈ ops, op.HasSize size) (hblocked : WriterBlocked log.buffer) :
    WriterBlocked (ops.foldl Log.step log).buffer := by
  have hstep : ∀ (log : Log) (op : Op), Aligned log.buffer size ∧ WriterBlocked log.buffer →
      op.HasSize size → Aligned (log.step op).buffer size ∧ WriterBlocked (log.step op).buffer := by
    intro log op hlog hop
    refine ⟨hlog.1.step hop, ?_⟩
    cases op with
    | enqueue item =>
        rw [Log.step, ofNat_length hop]
        exact (hlog.1.enqueue_blocked hlog.2 item).2
    | dequeue n => exact dequeue_blocked hlog.2 n
  exact (invariant_foldl hstep ⟨h, hblocked⟩ (along_of_forall hops)).2

theorem blocked_of_refused {log : Log} {ops : List Op} (h : Aligned log.buffer size)
    (hops : ∀ op ∈ ops, op.HasSize size) (hrefused : -1 ∈ verdicts log ops) :
    WriterBlocked (ops.foldl Log.step log).buffer := by
  induction ops generalizing log with
  | nil => cases hrefused
  | cons op ops ih =>
      have hrest : ∀ op ∈ ops, op.HasSize size := fun op hop => hops op (by simp [hop])
      have hop := hops op (by simp)
      have haligned : Aligned (log.step op).buffer size := h.step hop
      cases op with
      | dequeue n => exact ih haligned hrest hrefused
      | enqueue item =>
          rcases h.enqueue_verdict item with ⟨_, _, hblocked⟩ | ⟨_, heq⟩
          · have hnext : WriterBlocked (log.step (.enqueue item)).buffer := by
              rwa [Log.step, ofNat_length hop]
            have hlast : WriterBlocked (ops.foldl Log.step (log.step (.enqueue item))).buffer :=
              blocked_run haligned hrest hnext
            exact hlast
          · rw [verdicts, ofNat_length hop, heq, List.mem_cons] at hrefused
            rcases hrefused with hcode | hlater
            · cases hcode
            · exact ih haligned hrest hlater

/-- Through any run of enqueues and dequeues of `size`-byte items the enqueues
are accepted up to a point, not before the buffer was filled once over, and
refused from there on; and none is refused at all in a run on which the writer's
tail comes to lie past the end of the buffer. -/
theorem refusals_are_final (hcap : IsPow2 cap) (hsize : 0 < size.toNat)
    (hdvd : size.toNat ∣ cap.toNat) (ops : List Op) (hops : ∀ op ∈ ops, op.HasSize size) :
    (∃ k j, verdicts (Log.start cap) ops = List.replicate k 0 ++ List.replicate j (-1) ∧
      (j = 0 ∨ cap.toNat ≤ k * size.toNat)) ∧
    ∀ before after, ops = before ++ after → Escaped (Log.run cap before).buffer →
      -1 ∉ verdicts (Log.start cap) ops := by
  have hsplit := (firstLap_start hcap hsize hdvd).verdicts_split hops
  refine ⟨by simpa using hsplit, ?_⟩
  rintro before after rfl hescaped
  have hbefore : ∀ op ∈ before, op.HasSize size := fun op hop =>
    hops op (List.mem_append_left after hop)
  have hafter : ∀ op ∈ after, op.HasSize size := fun op hop =>
    hops op (List.mem_append_right before hop)
  have haligned := aligned_run hcap hsize hdvd hbefore
  have hlater : verdicts (Log.run cap before) after = List.replicate (enqueues after) 0 :=
    verdicts_escaped haligned hescaped hafter
  have hrun : verdicts (before.foldl Log.step (Log.start cap)) after = _ := hlater
  rw [verdicts_append, hrun, List.mem_append, not_or]
  constructor
  · intro hrefused
    have hblocked : WriterBlocked (Log.run cap before).buffer :=
      blocked_of_refused (aligned_create hcap hsize hdvd) hbefore hrefused
    have hfree := (haligned.enqueue_escaped hescaped []).1
    rw [(haligned.enqueue_blocked hblocked []).1] at hfree
    cases hfree
  · intro hrefused
    exact absurd (List.eq_of_mem_replicate hrefused) (by decide)

end OneSize

/-- The reader is once round the buffer before the writer meets its tail. -/
theorem refusals_are_final_escape :
    (∃ k j, verdicts (Log.start 2)
        [.enqueue [1], .dequeue 1, .enqueue [2], .enqueue [3], .dequeue 1, .dequeue 1] =
          List.replicate k 0 ++ List.replicate j (-1) ∧
        (j = 0 ∨ (2 : UInt64).toNat ≤ k * (1 : UInt64).toNat)) ∧
      ∀ before after,
        [.enqueue [1], .dequeue 1, .enqueue [2], .enqueue [3], .dequeue 1, .dequeue 1] =
          before ++ after → Escaped (Log.run 2 before).buffer →
        -1 ∉ verdicts (Log.start 2)
          [.enqueue [1], .dequeue 1, .enqueue [2], .enqueue [3], .dequeue 1, .dequeue 1] :=
  @refusals_are_final 2 1 ⟨1, rfl⟩ (by decide) (by decide) _ (by decide)

end Doctrina.Deque
