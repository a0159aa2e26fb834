import Doctrina.Lib.Execution
import Doctrina.Deque.Invariant
import Doctrina.Deque.Runs
import Doctrina.Deque.Refusals
import Doctrina.Deque.Records
import Doctrina.Deque.Straight
import Doctrina.Internal.Hash
import Doctrina.Lib.Mixing
import Doctrina.Internal.HashRange
import Doctrina.Fault
import Doctrina.Internal.Probes
import Doctrina.Lib.Probing
import Doctrina.Map.Basic
import Doctrina.Map.Lookup
import Doctrina.Map.Delete
import Doctrina.Map.Resurface
import Doctrina.Map.Update
import Doctrina.Map.Agreement
import Doctrina.Map.Full
import Doctrina.Set.InsertOnly
import Doctrina.Set.SameTable
import Doctrina.Set.Removals
import Doctrina.Heap.Multisets
import Doctrina.Heap.Ownership
import Doctrina.Lib.HeapSort
import Doctrina.Pq.Basic
import Doctrina.Lib.Walk
import Doctrina.Trie.Basic
import Doctrina.Stack.Runs
import Doctrina.Graph.Runs
import Doctrina.Lib.PairingHeap
import Doctrina.Store
import Doctrina.Graph.Traversal
import Doctrina.Pq.Drains
import Doctrina.Trie.Prefixes
import Doctrina.Trie.Runs
import Doctrina.Deque.Accounting
import Doctrina.ByteList.Appends
import Doctrina.Guards
import Doctrina.Trie.Bounds
import Doctrina.Graph.Enumeration
import Doctrina.Graph.Requeue
import Doctrina.Map.ReadOut
import Doctrina.Set.ReadOut
import Doctrina.Heap.Comparisons
import Doctrina.Internal.Objects
import Doctrina.Map.Objects
import Doctrina.Map.Placement
import Doctrina.Map.Lifetimes
import Doctrina.Internal.Lifetimes
import Doctrina.Set.Objects
import Doctrina.Set.Placement
import Doctrina.Set.Getall
import Doctrina.Set.Lifetimes
import Doctrina.Trie.Destroy
import Doctrina.Lib.Dictionary
import Doctrina.Map.Dictionary
import Doctrina.Graph.Capacity
import Doctrina.Graph.Destroy
import Doctrina.Deque.Fate
import Doctrina.Deque.Program
import Doctrina.Pq.Mirror
