import Doctrina.Store
/-!
# The pairing heap of heap.c

`data` pointers are items of any type, and the comparator is a function of the
items; `none` stands for the NULL that an empty heap returns.  The answers of
`calloc` are arguments.
-/

namespace Doctrina.Heap

structure HeapNode (α : Type) where
  data : α
  child : Option Addr
  sibling : Option Addr

structure HeapT (α : Type) where
  root : Option Addr
  cmp : α → α → Int

structure Memory (α : Type) where
  heaps : Store (HeapT α)
  nodes : Store (HeapNode α)

variable {α : Type}

def HeapNode.setChild (child : Option Addr) (node : HeapNode α) : HeapNode α :=
  { node with child }

def HeapNode.setSibling (sibling : Option Addr) (node : HeapNode α) : HeapNode α :=
  { node with sibling }

def HeapT.setRoot (root : Option Addr) (heap : HeapT α) : HeapT α := { heap with root }

/-- `loser->sibling = winner->child; winner->child = loser`. -/
def adopt (nodes : Store (HeapNode α)) (winner loser : Option Addr) :
    Except Fault (Store (HeapNode α)) := do
  let node ← nodes.load winner
  let nodes ← nodes.modify loser (HeapNode.setSibling node.child)
  nodes.modify winner (HeapNode.setChild loser)

def mergeNodes (nodes : Store (HeapNode α)) (node1 node2 : Option Addr)
    (cmp : α → α → Int) : Except Fault (Store (HeapNode α) × Option Addr) :=
  match node1, node2 with
  | none, _ => .ok (nodes, node2)
  | some _, none => .ok (nodes, node1)
  | some _, some _ => do
      let first ← nodes.load node1
      let second ← nodes.load node2
      if cmp first.data second.data ≤ 0 then
        (adopt nodes node1 node2).map fun nodes => (nodes, node1)
      else
        (adopt nodes node2 node1).map fun nodes => (nodes, node2)

/-- `fuel` bounds the depth of the recursion. -/
def mergePairs (cmp : α → α → Int) : Nat → Store (HeapNode α) → Option Addr →
    Except Fault (Store (HeapNode α) × Option Addr)
  | 0, _, _ => .error .outOfFuel
  | _ + 1, nodes, none => .ok (nodes, none)
  | fuel + 1, nodes, some first => do
      let node ← nodes.load (some first)
      match node.sibling with
      | none => return (nodes, some first)
      | some second =>
          let other ← nodes.load (some second)
          let remaining := other.sibling
          let nodes ← nodes.modify (some first) (HeapNode.setSibling none)
          let nodes ← nodes.modify (some second) (HeapNode.setSibling none)
          let result ← mergeNodes nodes (some first) (some second) cmp
          let rest ← mergePairs cmp fuel result.1 remaining
          mergeNodes rest.1 result.2 rest.2 cmp

def destroyNode : Nat → Store (HeapNode α) → Option Addr →
    Except Fault (Store (HeapNode α))
  | 0, _, _ => .error .outOfFuel
  | _ + 1, nodes, none => .ok nodes
  | fuel + 1, nodes, some a => do
      let node ← nodes.load (some a)
      let nodes ← destroyNode fuel nodes node.child
      let nodes ← nodes.modify (some a) (HeapNode.setChild none)
      let node ← nodes.load (some a)
      let nodes ← destroyNode fuel nodes node.sibling
      let nodes ← nodes.modify (some a) (HeapNode.setSibling none)
      nodes.free a

def heapNew (self : Memory α) (cmp : α → α → Int) (answer : Option Addr) :
    Except Fault (Memory α × Addr) :=
  match answer with
  | none => .error (.exit "heap_new" "could not allocate pairing heap")
  | some heap => .ok ({ self with heaps := self.heaps.insert heap ⟨none, cmp⟩ }, heap)

def heapDestroy (self : Memory α) (heap : Option Addr) : Except Fault (Memory α) :=
  match heap with
  | none => .ok self
  | some a => do
      let object ← self.heaps.load heap
      let nodes ← destroyNode self.nodes.fuel self.nodes object.root
      let heaps ← self.heaps.modify heap (HeapT.setRoot none)
      let heaps ← heaps.free a
      return ⟨heaps, nodes⟩

def heapPush (self : Memory α) (heap : Option Addr) (data : α) (answer : Option Addr) :
    Except Fault (Memory α × Int) :=
  match answer with
  | none => .error (.exit "heap_push" "could not allocate node")
  | some node => do
      let nodes := self.nodes.insert node ⟨data, none, none⟩
      let object ← self.heaps.load heap
      let merged ← mergeNodes nodes object.root (some node) object.cmp
      let heaps ← self.heaps.modify heap (HeapT.setRoot merged.2)
      return (⟨heaps, merged.1⟩, 0)

def heapPoll (self : Memory α) (heap : Option Addr) : Except Fault (Option α) :=
  match heap with
  | none => .ok none
  | some _ => do
      let object ← self.heaps.load heap
      match object.root with
      | none => return none
      | some _ =>
          let root ← self.nodes.load object.root
          return some root.data

def heapPop (self : Memory α) (heap : Option Addr) :
    Except Fault (Memory α × Option α) :=
  match heap with
  | none => .ok (self, none)
  | some _ => do
      let object ← self.heaps.load heap
      match object.root with
      | none => return (self, none)
      | some oldRoot =>
          let node ← self.nodes.load (some oldRoot)
          let merged ← mergePairs object.cmp self.nodes.fuel self.nodes node.child
          let heaps ← self.heaps.modify heap (HeapT.setRoot merged.2)
          let nodes ← merged.1.free oldRoot
          return (⟨heaps, nodes⟩, some node.data)

def heapMerge (self : Memory α) (h1 h2 : Option Addr) :
    Except Fault (Memory α × Option Addr) :=
  match h1, h2 with
  | none, _ => .ok (self, h2)
  | some _, none => .ok (self, h1)
  | some _, some second => do
      let object1 ← self.heaps.load h1
      let object2 ← self.heaps.load h2
      let merged ← mergeNodes self.nodes object1.root object2.root object1.cmp
      let heaps ← self.heaps.modify h1 (HeapT.setRoot merged.2)
      let heaps ← heaps.free second
      return (⟨heaps, merged.1⟩, h1)

end Doctrina.Heap
