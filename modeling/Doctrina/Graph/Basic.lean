import Doctrina.Internal.Word
import Doctrina.Map.Basic
import Doctrina.Set.Basic
import Doctrina.Store
/-!
# Building the graph of graph.c

Nodes and edges are objects of a store.  Their addresses are stored as words,
0 for NULL: a node's as the value of its key in the map `nodes`, an edge's as a
key of the edge set of its source.  The answers of `calloc` for nodes and edges
are arguments.
-/

namespace Doctrina.Graph

open Doctrina.Internal Doctrina.Map Doctrina.Set

structure GraphEdge where
  dest : Addr

/-- `data` stands for the pointer to the key and its `size`. -/
structure GraphNode where
  data : List UInt8
  edges : SetT

structure GraphT where
  nodes : MapT

structure Memory where
  graphNodes : Store GraphNode
  graphEdges : Store GraphEdge

/-- A graph with the nodes and edges that were allocated for it. -/
structure State where
  graph : GraphT
  memory : Memory

/-- The pointer that a word holds. -/
def pointer (word : Addr) : Option Addr := if word = 0 then none else some word

/-- The word behind a pointer to bytes. -/
def readWord (bytes : List UInt8) : Except Fault Addr := (bytesAt bytes 0 8).map readLE

def graphEdgeCreate (memory : Memory) (dest answer : Addr) :
    Except Fault (Memory × Addr) :=
  if answer = 0 then
    .error (.exit "graph_edge_create" "Could not allocate graph edge to the heap")
  else
    .ok ({ memory with graphEdges := memory.graphEdges.insert answer ⟨dest⟩ }, answer)

def graphNodeCreate (memory : Memory) (data : List UInt8) (maxEdges : UInt64)
    (answer : Addr) : Except Fault (Memory × Addr) :=
  if answer = 0 then
    .error (.exit "graph_node_create" "Could not allocate graph node to the heap")
  else
    .ok ({ memory with
      graphNodes := memory.graphNodes.insert answer ⟨data, setNew maxEdges⟩ }, answer)

def graphCreate (maxNodes : UInt64) : State := ⟨⟨mapNew maxNodes⟩, ⟨∅, ∅⟩⟩

section Operations

variable (hash : List UInt8 → UInt64 → UInt64)

def graphNodeAddEdge (memory : Memory) (self edge : Addr) : Except Fault Memory := do
  let node ← memory.graphNodes.load (pointer self)
  let added := setAdd hash node.edges (wordBytes edge)
  if 0 > added.2 then
    .error (.exit "graph_node_add_edge" "Could not add edge to the set")
  else
    let graphNodes ← memory.graphNodes.modify (pointer self) fun node =>
      { node with edges := added.1 }
    return { memory with graphNodes }

def graphAddNode (state : State) (data : List UInt8) (answer : Addr) :
    Except Fault (State × Addr) := do
  let found ← mapGet hash state.graph.nodes data (some 0)
  match found.1 with
  | none =>
      let created ← graphNodeCreate state.memory data 16 answer
      let stored ← mapSet hash state.graph.nodes data (wordBytes created.2)
      if 0 > stored.2 then
        .error (.exit "graph_add_node" "Could not insert key-value pair into map")
      else return (⟨⟨stored.1⟩, created.1⟩, created.2)
  | some addr =>
      let node ← readWord addr
      return (state, node)

/-- The arguments of a `graph_add_edge`, and the answers of `calloc` for a node
of `b`, for the edge and for a node of `a`. -/
structure Call where
  a : List UInt8
  b : List UInt8
  dst : Addr
  edge : Addr
  src : Addr

def graphAddEdge (state : State) (call : Call) : Except Fault State := do
  let dst ← graphAddNode hash state call.b call.dst
  let edge ← graphEdgeCreate dst.1.memory dst.2 call.edge
  let src ← graphAddNode hash ⟨dst.1.graph, edge.1⟩ call.a call.src
  let memory ← graphNodeAddEdge hash src.1.memory src.2 edge.2
  return ⟨src.1.graph, memory⟩

end Operations

end Doctrina.Graph
