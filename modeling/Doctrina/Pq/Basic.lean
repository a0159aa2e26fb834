import Doctrina.Heap.Views
/-!
# The priority queue of pq.c

A queue is an object of its own that points to the heap with its items.  As in
the heap, NULL for an item is `none`, and the answers of `calloc` are
arguments.
-/

namespace Doctrina.Pq

structure PriorityQueue where
  heap : Option Addr
  deriving DecidableEq

structure Memory (α : Type) where
  queues : Store PriorityQueue
  heaps : Heap.Memory α

variable {α : Type}

def PriorityQueue.setHeap (heap : Option Addr) (pq : PriorityQueue) : PriorityQueue :=
  { pq with heap }

/-- `answer` is that of the allocation of the queue, `heapAnswer` that of the
allocation in heap_new. -/
def pqNew (self : Memory α) (cmp : α → α → Int) (answer heapAnswer : Option Addr) :
    Except Fault (Memory α × Addr) :=
  match answer with
  | none => .error (.exit "pq_new" "could not allocate memory for priority queue")
  | some pq => do
      let queues : Store PriorityQueue := self.queues.insert pq ⟨none⟩
      let created ← Heap.heapNew self.heaps cmp heapAnswer
      let queues ← queues.modify answer (PriorityQueue.setHeap (some created.2))
      return (⟨queues, created.1⟩, pq)

def pqDestroy (self : Memory α) (pq : Option Addr) : Except Fault (Memory α) :=
  match pq with
  | none => .ok self
  | some a => do
      let object ← self.queues.load pq
      let heaps ← Heap.heapDestroy self.heaps object.heap
      let queues ← self.queues.free a
      return ⟨queues, heaps⟩

def pqPush (self : Memory α) (pq : Option Addr) (data : α) (answer : Option Addr) :
    Except Fault (Memory α × Int) :=
  match pq with
  | none => .ok (self, -1)
  | some _ => do
      let object ← self.queues.load pq
      let pushed ← Heap.heapPush self.heaps object.heap data answer
      return (⟨self.queues, pushed.1⟩, pushed.2)

def pqPeek (self : Memory α) (pq : Option Addr) : Except Fault (Option α) :=
  match pq with
  | none => .ok none
  | some _ => do
      let object ← self.queues.load pq
      Heap.heapPoll self.heaps object.heap

def pqPop (self : Memory α) (pq : Option Addr) : Except Fault (Memory α × Option α) :=
  match pq with
  | none => .ok (self, none)
  | some _ => do
      let object ← self.queues.load pq
      let popped ← Heap.heapPop self.heaps object.heap
      return (⟨self.queues, popped.1⟩, popped.2)

def pqMerge (self : Memory α) (pq1 pq2 : Option Addr) :
    Except Fault (Memory α × Option Addr) :=
  match pq1, pq2 with
  | none, _ => .ok (self, pq2)
  | some _, none => .ok (self, pq1)
  | some _, some second => do
      let object1 ← self.queues.load pq1
      let object2 ← self.queues.load pq2
      let merged ← Heap.heapMerge self.heaps object1.heap object2.heap
      let queues ← self.queues.modify pq1 (PriorityQueue.setHeap merged.2)
      let queues ← queues.free second
      return (⟨queues, merged.1⟩, pq1)

inductive Op (α : Type)
  | new (answer heapAnswer : Option Addr)
  | destroy (pq : Option Addr)
  | push (pq : Option Addr) (data : α) (answer : Option Addr)
  | peek (pq : Option Addr)
  | pop (pq : Option Addr)
  | merge (pq1 pq2 : Option Addr)

/-- What a call returns: a status, a queue or an item. -/
inductive Result (α : Type)
  | status (value : Int)
  | queue (pointer : Option Addr)
  | item (data : Option α)
  | void

def call (cmp : α → α → Int) (self : Memory α) : Op α → Except Fault (Memory α × Result α)
  | .new answer heapAnswer =>
      (pqNew self cmp answer heapAnswer).map fun (self, pq) => (self, .queue (some pq))
  | .destroy pq => (pqDestroy self pq).map fun self => (self, .void)
  | .push pq data answer =>
      (pqPush self pq data answer).map fun (self, value) => (self, .status value)
  | .peek pq => (pqPeek self pq).map fun data => (self, .item data)
  | .pop pq => (pqPop self pq).map fun (self, data) => (self, .item data)
  | .merge pq1 pq2 => (pqMerge self pq1 pq2).map fun (self, pq) => (self, .queue pq)

/-- An answer of `calloc` that is neither NULL nor live. -/
def Memory.Fresh (self : Memory α) : Option Addr → Prop
  | none => False
  | some a => a ∉ self.queues ∧ a ∉ self.heaps.heaps ∧ a ∉ self.heaps.nodes

def Memory.Live (self : Memory α) : Option Addr → Prop
  | none => False
  | some a => a ∈ self.queues

/-- The call is made on live queues or NULL, it merges two distinct queues, and
`calloc` has memory. -/
def Legal (self : Memory α) : Op α → Prop
  | .new answer heapAnswer => self.Fresh answer ∧ self.Fresh heapAnswer ∧ answer ≠ heapAnswer
  | .destroy pq => pq = none ∨ self.Live pq
  | .push pq _ answer => pq = none ∨ (self.Live pq ∧ self.Fresh answer)
  | .peek pq => pq = none ∨ self.Live pq
  | .pop pq => pq = none ∨ self.Live pq
  | .merge pq1 pq2 => (pq1 = none ∨ self.Live pq1) ∧ (pq2 = none ∨ self.Live pq2) ∧
      (pq1 = none ∨ pq1 ≠ pq2)

instance (self : Memory α) : DecidablePred self.Fresh
  | none => .isFalse id
  | some _ => inferInstanceAs (Decidable (_ ∧ _ ∧ _))

instance (self : Memory α) : DecidablePred self.Live
  | none => .isFalse id
  | some a => inferInstanceAs (Decidable (a ∈ self.queues))

instance (self : Memory α) : DecidablePred (Legal self)
  | .new _ _ => inferInstanceAs (Decidable (_ ∧ _ ∧ _))
  | .push _ _ _ => inferInstanceAs (Decidable (_ ∨ (_ ∧ _)))
  | .destroy _ | .peek _ | .pop _ => inferInstanceAs (Decidable (_ ∨ _))
  | .merge _ _ => inferInstanceAs (Decidable (_ ∧ _ ∧ _))

end Doctrina.Pq
