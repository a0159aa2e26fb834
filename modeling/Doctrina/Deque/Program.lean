import Doctrina.Deque.Fate
import Doctrina.Fault
/-!
# The program of deque.cc

The class template hands items of one size to the ring buffer.  `main` enqueues
its numbers, complains about those that are refused, and prints what it
dequeues until there is nothing left.
-/

namespace Doctrina.Deque

open Doctrina.Lib.Execution Doctrina.Lib.Word64

/-- `Deque<T>`, with `sizeof(T)`. -/
structure DequeT where
  buffer : RingBuffer
  sizeof : UInt64

def dequeNew (capacity sizeof : UInt64) : DequeT := ⟨ringBufferCreate capacity, sizeof⟩

def dequeEnqueue (self : DequeT) (data : List UInt8) : DequeT × Int :=
  let (buffer, code) := ringBufferEnqueue self.buffer data self.sizeof
  ({ self with buffer }, code)

def dequeDequeue (self : DequeT) : DequeT × Option (List UInt8) :=
  let (buffer, data) := ringBufferDequeue self.buffer self.sizeof
  ({ self with buffer }, data)

/-- The calls of `enqueue` in `main`, with what they return. -/
def fill (self : DequeT) : List (List UInt8) → DequeT × List Int
  | [] => (self, [])
  | item :: items =>
      let (self, code) := dequeEnqueue self item
      let (self, codes) := fill self items
      (self, code :: codes)

/-- The loop of `main`: what it prints, until `dequeue` returns NULL. -/
def drain : Nat → DequeT → Except Fault (DequeT × List (List UInt8))
  | 0, _ => .error .outOfFuel
  | fuel + 1, self =>
      match dequeDequeue self with
      | (self, none) => .ok (self, [])
      | (self, some data) => (drain fuel self).map fun (self, printed) => (self, data :: printed)

/-- What the calls of `enqueue` return when calls of `dequeue`, for `none`, come
between them. -/
def codes (self : DequeT) : List (Option (List UInt8)) → List Int
  | [] => []
  | some item :: calls =>
      let (self, code) := dequeEnqueue self item
      code :: codes self calls
  | none :: calls => codes (dequeDequeue self).1 calls

/-- A call on the ring buffer. -/
def asOp (sizeof : UInt64) : Option (List UInt8) → Op
  | some item => .enqueue item
  | none => .dequeue sizeof

section Program

variable {cap size : UInt64} {log : Log}

theorem fill_eq (log : Log) {items : List (List UInt8)}
    (hitems : ∀ item ∈ items, item.length = size.toNat) :
    fill ⟨log.buffer, size⟩ items =
      (⟨((items.map Op.enqueue).foldl Log.step log).buffer, size⟩,
        verdicts log (items.map Op.enqueue)) := by
  induction items generalizing log with
  | nil => rfl
  | cons item items ih =>
      have hitem := ofNat_length (hitems item List.mem_cons_self)
      have hrest := ih (log.step (.enqueue item)) fun item' hitem' =>
        hitems item' (List.mem_cons_of_mem item hitem')
      rw [Log.step, hitem] at hrest
      rw [fill, dequeEnqueue, List.map_cons, List.foldl_cons, verdicts, Log.step, hitem]
      simp only [hrest]

/-- Nothing was dequeued yet, and the writer has met its tail if it stands at the
end. -/
structure Filling (cap size : UInt64) (log : Log) (count : Nat) : Prop where
  lap : FirstLap cap size log count
  inv : log.Inv cap size
  unread : log.buffer.reader.head = 0
  met : log.buffer.writer.head.toNat = cap.toNat → WriterBlocked log.buffer

theorem filling_start (hcap : IsPow2 cap) (hsize : 0 < size.toNat)
    (hdvd : size.toNat ∣ cap.toNat) : Filling cap size (Log.start cap) 0 where
  lap := firstLap_start hcap hsize hdvd
  inv := Log.inv_start hcap hsize hdvd
  unread := rfl
  met h := absurd h (Nat.ne_of_lt hcap.pos)

theorem Filling.enqueue {count : Nat} (h : Filling cap size log count)
    (hlt : log.buffer.writer.head.toNat < cap.toNat) {item : List UInt8}
    (hitem : item.length = size.toNat) :
    Filling cap size (log.step (.enqueue item)) (count + 1) := by
  have hsafe : NoOverrun log (.enqueue item) := by
    rintro ⟨_, htail⟩
    rw [h.lap.cap_eq, h.lap.tail_of_lt hlt] at htail
    exact UInt64.lt_irrefl _ htail
  have hlap := h.lap.enqueue hlt hitem
  refine ⟨hlap, h.inv.enqueue hitem hsafe, ?_, fun hend => ?_⟩
  · rw [h.lap.step_enqueue hlt hitem, reader_accept]
    exact h.unread
  · rw [h.lap.step_enqueue hlt hitem] at hend ⊢
    have hmet : log.buffer.writer.head + size = log.buffer.writer.tail := by
      rw [h.lap.tail_of_lt hlt, ← UInt64.toNat_inj, ← writer_head_accept _ item]
      exact hend
    right
    rw [writer_tail_accept, if_pos hmet, cap_accept, h.lap.cap_eq]
    exact ⟨UInt64.toNat_inj.mp hend, h.unread⟩

theorem Log.Inv.fill_blocked {items : List (List UInt8)} (h : log.Inv cap size)
    (hblocked : WriterBlocked log.buffer) (hitems : ∀ item ∈ items, item.length = size.toNat) :
    ((items.map Op.enqueue).foldl Log.step log).accepted = log.accepted ∧
      ((items.map Op.enqueue).foldl Log.step log).returned = log.returned ∧
      ((items.map Op.enqueue).foldl Log.step log).Inv cap size := by
  induction items generalizing log with
  | nil => exact ⟨rfl, rfl, h⟩
  | cons item items ih =>
      obtain ⟨pending, hinv, _⟩ := h.split
      have hitem := hitems item List.mem_cons_self
      have hsafe : NoOverrun log (.enqueue item) := fun hover =>
        hinv.not_writerBlocked hover.2 hblocked
      obtain ⟨hcode, hnext⟩ := hinv.aligned.enqueue_blocked hblocked item
      have hstep : log.step (.enqueue item) =
          ⟨(ringBufferEnqueue log.buffer item size).1, log.accepted, log.returned⟩ := by
        rw [Log.step, ofNat_length hitem]
        simp only [hcode]
        rfl
      have hinv' := h.enqueue hitem hsafe
      rw [hstep] at hinv'
      rw [List.map_cons, List.foldl_cons, hstep]
      exact ih hinv' hnext fun item' hitem' => hitems item' (List.mem_cons_of_mem item hitem')

theorem hasSize_enqueue {items : List (List UInt8)}
    (hitems : ∀ item ∈ items, item.length = size.toNat) :
    ∀ op ∈ items.map Op.enqueue, op.HasSize size := by
  intro op hop
  obtain ⟨item, hitem, rfl⟩ := List.mem_map.mp hop
  exact hitems item hitem

theorem enqueues_map (items : List (List UInt8)) :
    enqueues (items.map Op.enqueue) = items.length := by
  rw [enqueues, List.countP_map, List.countP_eq_length]
  intro item _
  rfl

theorem codes_eq (log : Log) {calls : List (Option (List UInt8))}
    (hcalls : ∀ item, some item ∈ calls → item.length = size.toNat) :
    codes ⟨log.buffer, size⟩ calls = verdicts log (calls.map (asOp size)) := by
  induction calls generalizing log with
  | nil => rfl
  | cons call calls ih =>
      have hrest : ∀ item, some item ∈ calls → item.length = size.toNat := fun item hitem =>
        hcalls item (List.mem_cons_of_mem call hitem)
      cases call with
      | none => exact ih (log.step (.dequeue size)) hrest
      | some item =>
          have hitem := ofNat_length (hcalls item List.mem_cons_self)
          have hnext := ih (log.step (.enqueue item)) hrest
          rw [Log.step, hitem] at hnext
          rw [codes, dequeEnqueue, List.map_cons, asOp, verdicts, Log.step, hitem]
          simp only [hnext]

theorem hasSize_asOp {calls : List (Option (List UInt8))}
    (hcalls : ∀ item, some item ∈ calls → item.length = size.toNat) :
    ∀ op ∈ calls.map (asOp size), op.HasSize size := by
  intro op hop
  obtain ⟨call, hcall, rfl⟩ := List.mem_map.mp hop
  cases call with
  | none => rfl
  | some item => exact hcalls item hcall

theorem enqueues_asOp (size : UInt64) (calls : List (Option (List UInt8))) :
    enqueues (calls.map (asOp size)) = calls.countP Option.isSome := by
  rw [enqueues, List.countP_map]
  apply List.countP_congr
  intro call _
  cases call <;> rfl

/-- What filling leaves: the items for which there were slots, and a blocked
writer once these are used up. -/
structure Filled (cap size : UInt64) (log : Log) (slots : Nat) (items : List (List UInt8)) :
    Prop where
  accepted : ((items.map Op.enqueue).foldl Log.step log).accepted =
    log.accepted ++ items.take slots
  returned : ((items.map Op.enqueue).foldl Log.step log).returned = log.returned
  inv : ((items.map Op.enqueue).foldl Log.step log).Inv cap size
  answers : verdicts log (items.map Op.enqueue) =
    List.replicate (min items.length slots) 0 ++ List.replicate (items.length - slots) (-1)
  blocked : WriterBlocked ((items.map Op.enqueue).foldl Log.step log).buffer ↔
    slots ≤ items.length

theorem Filling.filled {count slots : Nat} (h : Filling cap size log count)
    (hslots : (count + slots) * size.toNat = cap.toNat) {items : List (List UInt8)}
    (hitems : ∀ item ∈ items, item.length = size.toNat) : Filled cap size log slots items := by
  have hpos := h.lap.aligned.size_pos
  have hhead := h.lap.head
  rw [Nat.add_mul] at hslots
  induction items generalizing log count slots with
  | nil =>
      refine ⟨by simp, rfl, h.inv, by simp [verdicts], ?_⟩
      cases slots with
      | zero => exact iff_of_true (h.met (by omega)) (Nat.le_refl 0)
      | succ slots =>
          rw [Nat.add_mul] at hslots
          exact iff_of_false (h.lap.not_blocked (by omega)) (Nat.not_succ_le_zero slots)
  | cons item items ih =>
      have hitem := hitems item List.mem_cons_self
      cases slots with
      | zero =>
          have hblocked := h.met (by omega)
          obtain ⟨haccepted, hreturned, hinv⟩ := h.inv.fill_blocked hblocked hitems
          refine ⟨by simpa using haccepted, hreturned, hinv, ?_, ?_⟩
          · rw [verdicts_blocked h.lap.aligned hblocked (hasSize_enqueue hitems), enqueues_map]
            simp
          · exact iff_of_true (blocked_run h.lap.aligned (hasSize_enqueue hitems) hblocked)
              (Nat.zero_le _)
      | succ slots =>
          rw [Nat.add_mul] at hslots
          have hlt : log.buffer.writer.head.toNat < cap.toNat := by omega
          have hnext := h.enqueue hlt hitem
          have hcount := hnext.lap.head
          have hslots' : (count + 1) * size.toNat + slots * size.toNat = cap.toNat := by
            rw [Nat.add_mul]
            omega
          have hrest := ih hnext hslots'
            (fun item' hitem' => hitems item' (List.mem_cons_of_mem _ hitem')) hcount
          have hstep := h.lap.step_enqueue hlt hitem
          have hcode : (ringBufferEnqueue log.buffer item size).2 = 0 := by
            rcases h.lap.aligned.enqueue_verdict item with ⟨hblocked, _⟩ | ⟨_, heq⟩
            · exact absurd hblocked (h.lap.not_blocked hlt)
            · rw [heq]
          constructor
          · rw [List.map_cons, List.foldl_cons, hrest.accepted, hstep]
            simp
          · rw [List.map_cons, List.foldl_cons, hrest.returned, hstep]
          · exact hrest.inv
          · rw [List.map_cons, verdicts, ofNat_length hitem, hcode, hrest.answers,
              List.length_cons, Nat.succ_min_succ, List.replicate_succ, List.cons_append,
              Nat.add_sub_add_right]
          · rw [List.map_cons, List.foldl_cons, hrest.blocked, List.length_cons,
              Nat.add_le_add_iff_right]

theorem Inv.drain {buf : RingBuffer} {pending : List (List UInt8)} (h : Inv buf size pending)
    {fuel : Nat} (hfuel : pending.length < fuel) :
    ∃ buf', Deque.drain fuel ⟨buf, size⟩ = .ok (⟨buf', size⟩, pending) ∧ Inv buf' size [] ∧
      buf'.writer = buf.writer ∧ buf'.cap = buf.cap := by
  induction pending generalizing buf fuel with
  | nil =>
      cases fuel with
      | zero => cases hfuel
      | succ fuel =>
          refine ⟨buf, ?_, h, rfl, rfl⟩
          rw [Deque.drain, dequeDequeue, h.dequeue_nil]
  | cons item pending ih =>
      cases fuel with
      | zero => cases hfuel
      | succ fuel =>
          obtain ⟨hdata, hnext⟩ := h.dequeue_cons
          obtain ⟨buf', hdrain, hinv, hwriter, hcap⟩ := ih hnext (Nat.lt_of_succ_lt_succ hfuel)
          refine ⟨buf', ?_, hinv, by rw [hwriter, writer_dequeue], by rw [hcap, cap_dequeue]⟩
          have hcall : dequeDequeue ⟨buf, size⟩ =
              (⟨(ringBufferDequeue buf size).1, size⟩, some item) := by
            rw [dequeDequeue, ← hdata]
          rw [Deque.drain, hcall]
          simp only [hdrain]
          rfl

/-- What the program does with any items.  As many as there are slots are taken in
and printed in order, the others are refused; and if the slots were used up the
queue, though drained, never takes an item again, whatever is dequeued. -/
theorem fill_and_drain (hcap : IsPow2 cap) (hsize : 0 < size.toNat)
    (hdvd : size.toNat ∣ cap.toNat) (items : List (List UInt8))
    (hitems : ∀ item ∈ items, item.length = size.toNat) {fuel : Nat}
    (hfuel : cap.toNat / size.toNat < fuel) :
    (fill (dequeNew cap size) items).2 =
        List.replicate (min items.length (cap.toNat / size.toNat)) 0 ++
          List.replicate (items.length - cap.toNat / size.toNat) (-1) ∧
      ∃ self, Deque.drain fuel (fill (dequeNew cap size) items).1 =
          .ok (self, items.take (cap.toNat / size.toNat)) ∧
        ∀ calls : List (Option (List UInt8)),
          (∀ item, some item ∈ calls → item.length = size.toNat) →
            cap.toNat / size.toNat ≤ items.length →
              codes self calls = List.replicate (calls.countP Option.isSome) (-1) := by
  have hslots : (0 + cap.toNat / size.toNat) * size.toNat = cap.toNat := by
    rw [Nat.zero_add, Nat.div_mul_cancel hdvd]
  have hfilled := (filling_start hcap hsize hdvd).filled hslots hitems
  have hfill : fill (dequeNew cap size) items = _ := fill_eq (Log.start cap) hitems
  obtain ⟨pending, hinv, hsplit⟩ := hfilled.inv.split
  rw [hfilled.accepted, hfilled.returned] at hsplit
  have hpending : items.take (cap.toNat / size.toNat) = pending := hsplit
  have hlength : pending.length < fuel := by
    rw [← hpending, List.length_take]
    omega
  obtain ⟨buf', hdrain, hempty, hwriter, hcap'⟩ := hinv.drain hlength
  rw [hfill]
  refine ⟨hfilled.answers, ⟨buf', size⟩, by rw [hpending]; exact hdrain, ?_⟩
  intro calls hcalls hfull
  have hblocked : WriterBlocked buf' := by
    rw [WriterBlocked, hwriter, hcap']
    exact hfilled.blocked.mpr hfull
  rw [codes_eq ⟨buf', [], []⟩ hcalls]
  have hanswers : verdicts ⟨buf', [], []⟩ (calls.map (asOp size)) = _ :=
    verdicts_blocked hempty.aligned hblocked (hasSize_asOp hcalls)
  rw [hanswers, enqueues_asOp]

end Program

/-- The program itself: 16 bytes for five numbers of four bytes. -/
theorem fill_and_drain_main :
    (fill (dequeNew 16 4) [[1, 0, 0, 0], [4, 0, 0, 0], [9, 0, 0, 0], [16, 0, 0, 0],
        [25, 0, 0, 0]]).2 = List.replicate (min 5 4) 0 ++ List.replicate (5 - 4) (-1) ∧
      ∃ self, drain 5 (fill (dequeNew 16 4) [[1, 0, 0, 0], [4, 0, 0, 0], [9, 0, 0, 0],
          [16, 0, 0, 0], [25, 0, 0, 0]]).1 =
            .ok (self, [[1, 0, 0, 0], [4, 0, 0, 0], [9, 0, 0, 0], [16, 0, 0, 0]]) ∧
        ∀ calls : List (Option (List UInt8)), (∀ item, some item ∈ calls → item.length = 4) →
          4 ≤ 5 → codes self calls = List.replicate (calls.countP Option.isSome) (-1) :=
  @fill_and_drain 16 4 ⟨4, rfl⟩ (by decide) (by decide) [[1, 0, 0, 0], [4, 0, 0, 0],
    [9, 0, 0, 0], [16, 0, 0, 0], [25, 0, 0, 0]] (by decide) 5 (by decide)

end Doctrina.Deque
