import Doctrina.Deque.Invariant
import Doctrina.Lib.Execution
/-!
# Runs of enqueues and dequeues

A run keeps, beside the buffer, the items whose enqueue returned 0 and the
items that dequeues returned, oldest first.  With items of one size the buffer
is a queue for as long as no enqueue meets a full buffer whose writer tail has
run past the end, and its refusals are right exactly when a writer blocked on
free space is never asked to store.
-/

namespace Doctrina.Deque

open Doctrina.Lib.Execution Doctrina.Lib.Word64

inductive Op
  | enqueue (item : List UInt8)
  | dequeue (size : UInt64)

def Op.HasSize (size : UInt64) : Op → Prop
  | .enqueue item => item.length = size.toNat
  | .dequeue n => n = size

instance (size : UInt64) : DecidablePred (Op.HasSize size)
  | .enqueue item => inferInstanceAs (Decidable (item.length = size.toNat))
  | .dequeue n => inferInstanceAs (Decidable (n = size))

structure Log where
  buffer : RingBuffer
  accepted : List (List UInt8)
  returned : List (List UInt8)

def Log.start (cap : UInt64) : Log := ⟨ringBufferCreate cap, [], []⟩

def Log.step (log : Log) : Op → Log
  | .enqueue item =>
      let (buffer, code) := ringBufferEnqueue log.buffer item (.ofNat item.length)
      { log with
        buffer
        accepted := if code = 0 then log.accepted ++ [item] else log.accepted }
  | .dequeue size =>
      let (buffer, data) := ringBufferDequeue log.buffer size
      { log with buffer, returned := log.returned ++ data.toList }

def Log.run (cap : UInt64) (ops : List Op) : Log := ops.foldl Log.step (Log.start cap)

def Log.acceptedBytes (log : Log) : Nat := log.accepted.flatten.length

def Log.returnedBytes (log : Log) : Nat := log.returned.flatten.length

/-- The buffer holds the accepted items behind the returned ones. -/
structure Log.Inv (cap size : UInt64) (log : Log) : Prop where
  cap_eq : log.buffer.cap = cap
  lengths : ∀ item ∈ log.accepted, item.length = size.toNat
  split : ∃ pending, Deque.Inv log.buffer size pending ∧
    log.accepted = log.returned ++ pending

/-- An enqueue is not made while the buffer is full and the writer's tail lies
past its end. -/
def NoOverrun (log : Log) : Op → Prop
  | .enqueue _ => ¬(Full log.buffer ∧ log.buffer.cap < log.buffer.writer.tail)
  | .dequeue _ => True

instance (log : Log) : DecidablePred (NoOverrun log)
  | .enqueue _ => inferInstanceAs (Decidable (¬_))
  | .dequeue _ => inferInstanceAs (Decidable True)

/-- An enqueue is made neither by a writer blocked before the buffer is full
nor in a full buffer whose writer tail lies past the end. -/
def NoStall (log : Log) : Op → Prop
  | .enqueue _ =>
      ¬(WriterBlocked log.buffer ∧ ¬Full log.buffer) ∧
        ¬(Full log.buffer ∧ log.buffer.cap < log.buffer.writer.tail)
  | .dequeue _ => True

instance (log : Log) : DecidablePred (NoStall log)
  | .enqueue _ => inferInstanceAs (Decidable (_ ∧ _))
  | .dequeue _ => inferInstanceAs (Decidable True)

/-- An enqueue is accepted exactly if the item fits beside the bytes accepted
and not yet returned. -/
def Exact (log : Log) : Op → Prop
  | .enqueue item =>
      (ringBufferEnqueue log.buffer item (.ofNat item.length)).2 = 0 ↔
        log.acceptedBytes + item.length ≤ log.buffer.cap.toNat + log.returnedBytes
  | .dequeue _ => True

instance (log : Log) : DecidablePred (Exact log)
  | .enqueue _ => inferInstanceAs (Decidable (_ ↔ _))
  | .dequeue _ => inferInstanceAs (Decidable True)

theorem length_flatten_of_forall {n : Nat} {items : List (List UInt8)}
    (h : ∀ item ∈ items, item.length = n) : items.flatten.length = items.length * n := by
  rw [List.length_flatten, List.eq_replicate_of_mem (a := n) (l := items.map List.length)]
  · simp
  · simpa using h

section OneSize

variable {cap size : UInt64}

theorem Log.inv_start (hcap : IsPow2 cap) (hsize : 0 < size.toNat)
    (hdvd : size.toNat ∣ cap.toNat) : (Log.start cap).Inv cap size :=
  ⟨rfl, by simp [Log.start], [], inv_create hcap hsize hdvd, rfl⟩

theorem Log.Inv.enqueue {log : Log} {item : List UInt8} (h : log.Inv cap size)
    (hitem : item.length = size.toNat) (hsafe : NoOverrun log (.enqueue item)) :
    (log.step (.enqueue item)).Inv cap size := by
  obtain ⟨hcap, hlength, pending, hinv, hsplit⟩ := h
  have hsize : UInt64.ofNat item.length = size := by
    rw [hitem]
    exact UInt64.ofNat_toNat
  have hfull : log.buffer.cap.toNat < log.buffer.writer.tail.toNat →
      pending.length * size.toNat ≠ log.buffer.cap.toNat := by
    intro htail hlen
    exact hsafe ⟨hinv.full_iff.mpr hlen, UInt64.lt_iff_toNat_lt.mpr htail⟩
  have hcapstep : (ringBufferEnqueue log.buffer item size).1.cap = cap := by
    rw [cap_enqueue, hcap]
  simp only [Log.step, hsize]
  rcases hinv.enqueue hitem hfull with ⟨hcode, hnext⟩ | ⟨hcode, hnext⟩
  · rw [hcode]
    exact ⟨hcapstep, by simpa using hlength, pending, hnext, hsplit⟩
  · rw [hcode]
    refine ⟨hcapstep, ?_, pending ++ [item], hnext, ?_⟩
    · intro other hother
      simp only [if_true, List.mem_append, List.mem_singleton] at hother
      rcases hother with hold | rfl
      · exact hlength other hold
      · exact hitem
    · simp [hsplit]

theorem Log.Inv.dequeue {log : Log} (h : log.Inv cap size) :
    (log.step (.dequeue size)).Inv cap size := by
  obtain ⟨hcap, hlength, pending, hinv, hsplit⟩ := h
  have hcapstep : (ringBufferDequeue log.buffer size).1.cap = cap := by
    rw [cap_dequeue, hcap]
  simp only [Log.step]
  cases pending with
  | nil =>
      rw [hinv.dequeue_nil]
      exact ⟨hcap, hlength, [], hinv, by simpa using hsplit⟩
  | cons item pending =>
      obtain ⟨hdata, hnext⟩ := hinv.dequeue_cons
      rw [hdata]
      exact ⟨hcapstep, hlength, pending, hnext, by simp [hsplit]⟩

theorem Log.Inv.step {log : Log} {op : Op} (h : log.Inv cap size)
    (hop : op.HasSize size ∧ NoOverrun log op) : (log.step op).Inv cap size := by
  cases op with
  | enqueue item => exact h.enqueue hop.1 hop.2
  | dequeue n =>
      have hn : n = size := hop.1
      subst hn
      exact h.dequeue

theorem Log.inv_run (hcap : IsPow2 cap) (hsize : 0 < size.toNat)
    (hdvd : size.toNat ∣ cap.toNat) {ops : List Op}
    (hops : ∀ op ∈ ops, op.HasSize size)
    (h : Along Log.step NoOverrun (Log.start cap) ops) : (Log.run cap ops).Inv cap size :=
  invariant_foldl (fun _ _ hlog hop => hlog.step hop)
    (Log.inv_start hcap hsize hdvd) (along_and_forall h hops)

/-- Through a run of enqueues and dequeues of `size`-byte items, none of whose
enqueues overruns a full buffer, the returned items are the first of the
accepted ones, in order. -/
theorem returned_prefix_accepted (hcap : IsPow2 cap) (hsize : 0 < size.toNat)
    (hdvd : size.toNat ∣ cap.toNat) (ops : List Op) (hops : ∀ op ∈ ops, op.HasSize size)
    (h : Along Log.step NoOverrun (Log.start cap) ops) :
    (Log.run cap ops).returned <+: (Log.run cap ops).accepted := by
  obtain ⟨_, _, pending, _, hsplit⟩ := Log.inv_run hcap hsize hdvd hops h
  exact ⟨pending, hsplit.symm⟩

end OneSize

theorem returned_prefix_accepted_lap :
    (Log.run 4 [.enqueue [1], .enqueue [2], .dequeue 1, .enqueue [3], .enqueue [4],
        .enqueue [5], .dequeue 1, .dequeue 1, .enqueue [6], .dequeue 1]).returned <+:
      (Log.run 4 [.enqueue [1], .enqueue [2], .dequeue 1, .enqueue [3], .enqueue [4],
        .enqueue [5], .dequeue 1, .dequeue 1, .enqueue [6], .dequeue 1]).accepted :=
  @returned_prefix_accepted 4 1 ⟨2, rfl⟩ (by decide) (by decide) _ (by decide)
    (by decide)

/-- The tenth item overwrites the sixth, which is the oldest unread one. -/
theorem returned_not_prefix_accepted :
    ¬∀ cap size : UInt64, IsPow2 cap → 0 < size.toNat → size.toNat ∣ cap.toNat →
      ∀ ops : List Op, (∀ op ∈ ops, op.HasSize size) →
        (Log.run cap ops).returned <+: (Log.run cap ops).accepted := by
  intro h
  have hrun := h 4 1 ⟨2, rfl⟩ (by decide) (by decide)
    [.enqueue [1], .enqueue [2], .enqueue [3], .dequeue 1, .enqueue [4], .dequeue 1,
      .enqueue [5], .dequeue 1, .enqueue [6], .dequeue 1, .enqueue [7], .dequeue 1,
      .enqueue [8], .enqueue [9], .enqueue [10], .dequeue 1] (by decide)
  revert hrun
  decide +kernel

section OneSize

variable {cap size : UInt64}

theorem Log.Inv.acceptedBytes_eq {log : Log} {pending : List (List UInt8)}
    (h : log.Inv cap size) (hsplit : log.accepted = log.returned ++ pending) :
    log.acceptedBytes = log.returnedBytes + pending.length * size.toNat := by
  have hpending : ∀ item ∈ pending, item.length = size.toNat := fun item hitem =>
    h.lengths item (by rw [hsplit]; exact List.mem_append_right _ hitem)
  rw [Log.acceptedBytes, Log.returnedBytes, hsplit, List.flatten_append,
    List.length_append, length_flatten_of_forall hpending]

theorem Log.Inv.acceptedBytes_le {log : Log} (h : log.Inv cap size) :
    log.acceptedBytes ≤ cap.toNat + log.returnedBytes := by
  obtain ⟨pending, hinv, hsplit⟩ := h.split
  have hle := hinv.unread_le
  rw [h.cap_eq] at hle
  rw [h.acceptedBytes_eq hsplit]
  omega

theorem NoStall.noOverrun {log : Log} {op : Op} (h : NoStall log op) :
    NoOverrun log op := by
  cases op with
  | enqueue item => exact h.2
  | dequeue n => trivial

theorem Log.Inv.exact_iff_noStall {log : Log} {op : Op} (h : log.Inv cap size)
    (hop : op.HasSize size) : Exact log op ↔ NoStall log op := by
  obtain ⟨pending, hinv, hsplit⟩ := h.split
  cases op with
  | dequeue n => exact Iff.rfl
  | enqueue item =>
      have hitem : item.length = size.toNat := hop
      have hsize : UInt64.ofNat item.length = size := by
        rw [hitem]
        exact UInt64.ofNat_toNat
      have hfits : log.acceptedBytes + item.length ≤
          log.buffer.cap.toNat + log.returnedBytes ↔ ¬Full log.buffer := by
        rw [h.acceptedBytes_eq hsplit, hinv.full_iff, hitem]
        constructor
        · intro hle heq
          have hpos := hinv.size_pos
          omega
        · intro hne
          have hle := hinv.unread_add_le hne
          omega
      have hblocked := hinv.writerBlocked_of_full
      have hfree := hinv.not_writerBlocked
      simp only [Exact, NoStall, hsize, hinv.enqueue_eq_zero_iff, hfits]
      tauto

theorem along_exact_iff (hcap : IsPow2 cap) (hsize : 0 < size.toNat)
    (hdvd : size.toNat ∣ cap.toNat) {ops : List Op} (hops : ∀ op ∈ ops, op.HasSize size) :
    Along Log.step Exact (Log.start cap) ops ↔
      Along Log.step NoStall (Log.start cap) ops := by
  have hcongr :
      Along Log.step (fun log op => op.HasSize size ∧ NoStall log op) (Log.start cap) ops ↔
        Along Log.step (fun log op => op.HasSize size ∧ Exact log op) (Log.start cap) ops :=
    @along_congr _ _ Log.step _ _ (Log.Inv cap size)
      (fun _ _ hlog hop => hlog.step ⟨hop.1, hop.2.noOverrun⟩)
      (fun _ _ hlog => and_congr_right fun hop => (hlog.exact_iff_noStall hop).symm)
      _ ops (Log.inv_start hcap hsize hdvd)
  constructor
  · intro h
    exact along_imp (fun _ _ hop => hop.2) (hcongr.mpr (along_and_forall h hops))
  · intro h
    exact along_imp (fun _ _ hop => hop.2) (hcongr.mp (along_and_forall h hops))

/-- Every enqueue of a run is accepted exactly if its item fits, and no more
than `cap` bytes are ever held, if and only if no enqueue of the run meets a
stalled writer. -/
theorem refusals_exact_iff_noStall (hcap : IsPow2 cap) (hsize : 0 < size.toNat)
    (hdvd : size.toNat ∣ cap.toNat) (ops : List Op) (hops : ∀ op ∈ ops, op.HasSize size) :
    (Along Log.step Exact (Log.start cap) ops ∧
        ∀ before after, ops = before ++ after →
          (Log.run cap before).acceptedBytes ≤
            cap.toNat + (Log.run cap before).returnedBytes) ↔
      Along Log.step NoStall (Log.start cap) ops := by
  rw [along_exact_iff hcap hsize hdvd hops]
  constructor
  · exact fun h => h.1
  · intro h
    refine ⟨h, ?_⟩
    rintro before after rfl
    have hbefore : ∀ op ∈ before, op.HasSize size := fun op hop =>
      hops op (List.mem_append_left after hop)
    have hsafe := along_imp (fun _ _ hop => hop.noOverrun) (along_of_append h)
    exact (Log.inv_run hcap hsize hdvd hbefore hsafe).acceptedBytes_le

end OneSize

/-- A full buffer that was drained by one item refuses the next one. -/
theorem refusal_after_drain :
    ¬∀ cap size : UInt64, IsPow2 cap → 0 < size.toNat → size.toNat ∣ cap.toNat →
      ∀ ops : List Op, (∀ op ∈ ops, op.HasSize size) →
        Along Log.step Exact (Log.start cap) ops := by
  intro h
  have hrun := h 4 1 ⟨2, rfl⟩ (by decide) (by decide)
    [.enqueue [1], .enqueue [2], .enqueue [3], .enqueue [4], .dequeue 1,
      .enqueue [5]] (by decide)
  revert hrun
  decide +kernel

theorem refusals_exact_iff_noStall_lap :
    (Along Log.step Exact (Log.start 4)
          [.enqueue [1], .enqueue [2], .dequeue 1, .enqueue [3], .enqueue [4],
            .enqueue [5], .dequeue 1] ∧
        ∀ before after,
          [.enqueue [1], .enqueue [2], .dequeue 1, .enqueue [3], .enqueue [4],
            .enqueue [5], .dequeue 1] = before ++ after →
          (Log.run 4 before).acceptedBytes ≤
            (4 : UInt64).toNat + (Log.run 4 before).returnedBytes) ↔
      Along Log.step NoStall (Log.start 4)
        [.enqueue [1], .enqueue [2], .dequeue 1, .enqueue [3], .enqueue [4],
          .enqueue [5], .dequeue 1] :=
  @refusals_exact_iff_noStall 4 1 ⟨2, rfl⟩ (by decide) (by decide) _ (by decide)

end Doctrina.Deque
