import Doctrina.Deque.RingBuffer
import Doctrina.Graph.Runs
import Doctrina.Stack.Basic
/-!
# graph_bfs and graph_dfs

The two differ in where they keep the nodes that are still to be visited.  The
model returns the nodes whose edge lists were enumerated, in order.
-/

namespace Doctrina.Graph

open Doctrina.Deque Doctrina.Internal Doctrina.Lib.Execution Doctrina.Map Doctrina.Set
  Doctrina.Stack

/-- Where a traversal keeps its nodes, and the texts of its own exits. -/
structure Traversal (σ : Type) where
  function : String
  create : UInt64 → σ
  put : σ → List UInt8 → UInt64 → Except Fault (σ × Int)
  take : σ → UInt64 → Except Fault (σ × Option (List UInt8))
  startRefused : String
  destRefused : String

section Traverse

variable {σ : Type} (hash : List UInt8 → UInt64 → UInt64) (work : Traversal σ)
  (memory : Memory) (visited : SetT)

/-- The loop body over the edges of a node. -/
def traverseEdge (edges : List UInt8) (pending : σ) (i : Nat) : Except Fault σ := do
  let edge ← (bytesAt edges (8 * i) 8).map readLE
  if edge = 0 then return pending
  else
    let edge ← memory.graphEdges.load (pointer edge)
    if setExists hash visited (wordBytes edge.dest) = 1 then return pending
    else
      let put ← work.put pending (wordBytes edge.dest) 8
      if 0 > put.2 then .error (.exit work.function work.destRefused)
      else return put.1

/-- `num_edges` is what `set_getall` counts, and that is bytes. -/
def traverseEdges (node : Addr) (pending : σ) : Except Fault σ := do
  let node ← memory.graphNodes.load (pointer node)
  let all ← setGetall node.edges (some 0)
  match all.1 with
  | none => .error (.exit work.function "Could not get an edge list from node")
  | some edges =>
      (List.range all.2).foldlM (traverseEdge hash work memory visited edges) pending

/-- The outer loop.  No node is ever added to `visited`. -/
def traverseLoop (fuel : Nat) (pending : σ) (enumerated : List Addr) :
    Except Fault (List Addr) :=
  match fuel with
  | 0 => .error .outOfFuel
  | fuel + 1 => do
      let taken ← work.take pending 8
      match taken.2 with
      | none => return enumerated
      | some addr =>
          let node ← readWord addr
          if node = 0 then return enumerated
          else if setExists hash visited (wordBytes node) = 1 then
            traverseLoop fuel taken.1 enumerated
          else
            let pending ← traverseEdges hash work memory visited node taken.1
            traverseLoop fuel pending (enumerated ++ [node])

/-- `node` is the pointer that `map_get` returns, to a copy of the value at the
address `buffer`. -/
def traverse (state : State) (start : List UInt8) (buffer : Addr) (fuel : Nat) :
    Except Fault (List Addr) := do
  let found ← mapGet hash state.graph.nodes start none
  match found.1 with
  | none => .error (.exit work.function "The start node does not exist in the graph")
  | some _ =>
      let put ← work.put (work.create 32) (wordBytes buffer) 8
      if 0 > put.2 then .error (.exit work.function work.startRefused)
      else traverseLoop hash work state.memory (setNew 32) fuel put.1 []

end Traverse

/-- All its indices are multiples of 8, so that no copy crosses the end of the
32 bytes. -/
def bfsQueue : Traversal RingBuffer where
  function := "graph_bfs"
  create := ringBufferCreate
  put := fun queue data size => .ok (ringBufferEnqueue queue data size)
  take := fun queue size => .ok (ringBufferDequeue queue size)
  startRefused := "Could not enqueue start node into node queue"
  destRefused := "Could not enqueue destination node into node queue"

def dfsStack : Traversal StackT where
  function := "graph_dfs"
  create := stackCreate
  put := stackPush
  take := stackPop
  startRefused := "Could not push start node onto node stack"
  destRefused := "Could not push destination node onto node stack"

section Searches

variable (hash : List UInt8 → UInt64 → UInt64) (state : State) (start : List UInt8)
  (buffer : Addr)

def graphBfs (fuel : Nat) : Except Fault (List Addr) :=
  traverse hash bfsQueue state start buffer fuel

def graphDfs (fuel : Nat) : Except Fault (List Addr) :=
  traverse hash dfsStack state start buffer fuel

/-- A search returns, and has enumerated the edge lists of the nodes that are
reachable from the start node, each once. -/
def VisitsReachable (search : Nat → Except Fault (List Addr)) : Prop :=
  ∃ fuel enumerated, search fuel = .ok enumerated ∧ enumerated.Nodup ∧
    ∀ q, q ∈ enumerated ↔ ∃ p, nodeOf hash state start = some p ∧
      Relation.ReflTransGen (fun p q => 0 < edgeCount state.memory p q) p q

end Searches

/-! ## No edge list is enumerated to its end -/

section EdgeLists

variable {σ : Type} {hash : List UInt8 → UInt64 → UInt64} {work : Traversal σ}
  {memory : Memory} {visited : SetT}

theorem EdgeSet.length_flatten {edges : SetT} (h : EdgeSet hash memory edges) :
    (SetT.members edges).flatten.length = 8 * (SetT.members edges).length := by
  have hlength : (SetT.members edges).map List.length =
      (SetT.members edges).map fun _ => 8 := by
    apply List.map_congr_left
    intro k hk
    obtain ⟨e, _, heq, _⟩ := h.live k hk
    rw [heq, length_wordBytes]
  rw [List.length_flatten, hlength, List.map_const', List.sum_replicate_nat, Nat.mul_comm]

theorem traverseEdge_end (edges : List UInt8) {i : Nat} (hi : edges.length = 8 * i)
    (pending : σ) :
    traverseEdge hash work memory visited edges pending i = .error .outOfBounds := by
  have hend : ¬8 * i + 8 ≤ edges.length := by omega
  rw [traverseEdge, bytesAt, if_neg hend]
  rfl

/-- The exit on an empty edge list, and the end of any other: no edge list is
enumerated without a fault. -/
theorem EdgeSet.traverseEdges_ne_ok {node : GraphNode} (h : EdgeSet hash memory node.edges)
    {p : Addr} (hp : p ≠ 0) (hnode : memory.graphNodes.lookup p = some node)
    (pending pending' : σ) :
    traverseEdges hash work memory visited p pending ≠ .ok pending' := by
  intro hrun
  have hload : memory.graphNodes.load (pointer p) = .ok node := by
    rw [pointer, if_neg hp, Store.load_eq hnode]
  simp only [traverseEdges, hload, h.insertOnly.setGetall_eq, bind, Except.bind, concat] at hrun
  by_cases hempty : SetT.members node.edges = []
  · rw [if_pos hempty] at hrun
    cases hrun
  · -- the loop counts bytes, and so comes to the edge behind the last one
    rw [if_neg hempty] at hrun
    have hlength := h.length_flatten
    have hpos : 0 < (SetT.members node.edges).length := List.length_pos_iff.mpr hempty
    have hmem : (SetT.members node.edges).length ∈
        List.range (SetT.members node.edges).flatten.length := by
      rw [List.mem_range]
      omega
    obtain ⟨before, after, hsplit⟩ := List.append_of_mem hmem
    rw [hsplit] at hrun
    obtain ⟨_, _, hrest⟩ := foldlM_append_ok.mp hrun
    obtain ⟨_, hstep, _⟩ := foldlM_cons_ok.mp hrest
    rw [traverseEdge_end _ hlength] at hstep
    cases hstep

theorem setExists_new (size : UInt64) (key : List UInt8) :
    setExists hash (setNew size) key = 0 := by
  apply (insertOnly_new size).setExists_of_not_mem
  simp [SetT.members, setNew]

theorem Inv.traverseLoop_ne_ok {state : State} {K : List UInt8 → Prop}
    {count : List UInt8 → List UInt8 → Nat} (h : Inv hash state K count) {p : Addr}
    (hlive : p ∈ state.memory.graphNodes) {pending rest : σ}
    (htake : work.take pending 8 = .ok (rest, some (wordBytes p))) (fuel : Nat)
    (enumerated result : List Addr) :
    traverseLoop hash work state.memory (setNew 32) fuel pending enumerated ≠ .ok result := by
  intro hrun
  obtain ⟨node, hnode⟩ := Finmap.mem_iff.mp hlive
  have hp : p ≠ 0 := (h.node_of_binds (h.node p node hnode)).2.1
  cases fuel with
  | zero => cases hrun
  | succ fuel =>
      have hexists : ¬setExists hash (setNew 32) (wordBytes p) = 1 := by
        rw [setExists_new]
        decide
      rw [traverseLoop, htake] at hrun
      simp only [bind, Except.bind, readWord_wordBytes, if_neg hp, if_neg hexists] at hrun
      cases hedges : traverseEdges hash work state.memory (setNew 32) p rest with
      | error e =>
          rw [hedges] at hrun
          cases hrun
      | ok pending' => exact (h.edges p node hnode).traverseEdges_ne_ok hp hnode _ _ hedges

end EdgeLists

/-! ## No search gets to its loop -/

section Searches

variable (hash : List UInt8 → UInt64 → UInt64) (state : State) (start : List UInt8)
  (buffer : Addr)

/-- `map_get` writes through the NULL that it is given for the size. -/
theorem traverse_eq {σ : Type} (work : Traversal σ) (fuel : Nat) :
    traverse hash work state start buffer fuel = .error .nullPointer := rfl

theorem not_visitsReachable {search : Nat → Except Fault (List Addr)}
    (h : ∀ fuel, search fuel = .error .nullPointer) :
    ¬VisitsReachable hash state start search := by
  rintro ⟨fuel, enumerated, hok, _⟩
  rw [h fuel] at hok
  cases hok

/-- In no state and from no start does either search return. -/
theorem searches_never_visit :
    ¬VisitsReachable hash state start (graphBfs hash state start buffer) ∧
      ¬VisitsReachable hash state start (graphDfs hash state start buffer) := by
  constructor
  · exact not_visitsReachable hash state start (traverse_eq hash state start buffer bfsQueue)
  · exact not_visitsReachable hash state start (traverse_eq hash state start buffer dfsStack)

end Searches

/-- The graph of the tests: from 1 to 4 by way of 2 and of 3. -/
def diamondCalls : List Call :=
  [⟨[1, 0, 0, 0], [2, 0, 0, 0], 16, 32, 48⟩, ⟨[1, 0, 0, 0], [3, 0, 0, 0], 64, 80, 0⟩,
    ⟨[2, 0, 0, 0], [4, 0, 0, 0], 96, 112, 0⟩, ⟨[3, 0, 0, 0], [4, 0, 0, 0], 0, 128, 0⟩]

/-- Wherever `map_get` puts its copy. -/
theorem diamond_not_visited :
    ¬∀ (maxNodes : UInt64) (calls : List Call) (state : State),
      (∀ call ∈ calls, call.a ≠ [] ∧ call.b ≠ []) →
        AlongM (graphAddEdge xxh3) (Legal xxh3) (graphCreate maxNodes) calls →
          calls.foldlM (graphAddEdge xxh3) (graphCreate maxNodes) = .ok state →
            ∀ start, mapExists xxh3 state.graph.nodes start = 1 →
              ∃ buffer, VisitsReachable xxh3 state start (graphBfs xxh3 state start buffer) ∧
                VisitsReachable xxh3 state start (graphDfs xxh3 state start buffer) := by
  intro h
  have hkeys : ∀ call ∈ diamondCalls, call.a ≠ [] ∧ call.b ≠ [] := by decide
  have hlegal : AlongM (graphAddEdge xxh3) (Legal xxh3) (graphCreate 16) diamondCalls := by
    decide +kernel
  have hexists : (diamondCalls.foldlM (graphAddEdge xxh3) (graphCreate 16)).map
      (fun state => mapExists xxh3 state.graph.nodes [1, 0, 0, 0]) = .ok 1 := by
    decide +kernel
  obtain ⟨state, hrun, hstart⟩ := Except.map_eq_ok hexists
  obtain ⟨buffer, ⟨fuel, enumerated, hok, _⟩, _⟩ :=
    h 16 diamondCalls state hkeys hlegal hrun [1, 0, 0, 0] hstart
  cases hok

end Doctrina.Graph
