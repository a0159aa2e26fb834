import Doctrina.Store
/-!
# The trie of trie.c

A trie is the node at its root, and is pointed to by that node's address.  A
key is the bytes behind a pointer, the terminating NUL and what may follow it
among them.  The answers of `calloc` are consumed from a list.
-/

namespace Doctrina.Trie

def NUM_CHILDREN : Nat := 255

structure TrieNode where
  eow : Bool
  children : Vector (Option Addr) NUM_CHILDREN
  deriving DecidableEq

/-- A node as `calloc` leaves it. -/
def TrieNode.zero : TrieNode := ⟨false, Vector.replicate NUM_CHILDREN none⟩

def TrieNode.setEow (eow : Bool) (node : TrieNode) : TrieNode := { node with eow }

def TrieNode.setChild (index : Nat) (child : Option Addr) (node : TrieNode) : TrieNode :=
  { node with children := node.children.setIfInBounds index child }

/-- `node->children[index]`. -/
def childAt (nodes : Store TrieNode) (node : Option Addr) (index : Nat) :
    Except Fault (Option Addr) := do
  let object ← nodes.load node
  match object.children[index]? with
  | none => .error .outOfBounds
  | some child => return child

def trieNodeNew (nodes : Store TrieNode) (answer : Option Addr) :
    Except Fault (Store TrieNode × Addr) :=
  match answer with
  | none => .error (.exit "trie_node_new" "Could not allocate trie node to the heap")
  | some node => .ok (nodes.insert node .zero, node)

def trieNew (nodes : Store TrieNode) (answer : Option Addr) :
    Except Fault (Store TrieNode × Addr) :=
  match answer with
  | none => .error (.exit "trie_new" "Could not allocate trie to the heap")
  | some trie => .ok (nodes.insert trie .zero, trie)

/-- The loop of trie_insert, with the node it ends at. -/
def trieInsertLoop (nodes : Store TrieNode) (node : Option Addr) :
    List UInt8 → List (Option Addr) → Except Fault (Store TrieNode × Option Addr)
  | [], _ => .error .outOfBounds
  | byte :: key, answers =>
      if byte = 0 then .ok (nodes, node)
      else do
        let index := byte.toNat
        let child ← childAt nodes node index
        match child with
        | none =>
            let created ← trieNodeNew nodes (answers.headD none)
            let nodes ← created.1.modify node (TrieNode.setChild index (some created.2))
            let child ← childAt nodes node index
            trieInsertLoop nodes child key answers.tail
        | some _ => trieInsertLoop nodes child key answers

def trieInsert (nodes : Store TrieNode) (self : Option Addr) (key : List UInt8)
    (answers : List (Option Addr)) : Except Fault (Store TrieNode) := do
  let result ← trieInsertLoop nodes self key answers
  result.1.modify result.2 (TrieNode.setEow true)

/-- The loop of trie_search from a node on. -/
def trieSearch (nodes : Store TrieNode) (node : Option Addr) : List UInt8 → Except Fault Bool
  | [] => .error .outOfBounds
  | byte :: key =>
      if byte = 0 then (nodes.load node).map TrieNode.eow
      else do
        let index := byte.toNat
        let child ← childAt nodes node index
        match child with
        | none => return false
        | some _ => trieSearch nodes child key

section Children

variable {node : TrieNode} {index : Nat} {child : Option Addr}

@[simp] theorem zero_eow : TrieNode.zero.eow = false := rfl

@[simp] theorem zero_children (h : index < NUM_CHILDREN) :
    TrieNode.zero.children[index]? = some none := by
  simp [TrieNode.zero, h]

@[simp] theorem setEow_eow (eow : Bool) : (node.setEow eow).eow = eow := rfl

@[simp] theorem setEow_children (eow : Bool) : (node.setEow eow).children = node.children := rfl

@[simp] theorem setChild_eow : (node.setChild index child).eow = node.eow := rfl

theorem setChild_children (h : index < NUM_CHILDREN) (index' : Nat) :
    (node.setChild index child).children[index']? =
      if index' = index then some child else node.children[index']? := by
  rw [TrieNode.setChild, Vector.getElem?_setIfInBounds]
  by_cases heq : index' = index
  · rw [if_pos heq, if_pos heq.symm, if_pos h]
  · rw [if_neg heq, if_neg (Ne.symm heq)]

end Children

end Doctrina.Trie
