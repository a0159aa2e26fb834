import Doctrina.Graph.Traversal
/-!
# The edge loop of the traversals

`set_getall` fills a buffer of eight bytes for each edge and reports its length
in bytes, which both loops take for the number of pointers in it.
-/

namespace Doctrina.Graph

open Doctrina.Deque Doctrina.Internal Doctrina.Lib.Execution Doctrina.Set Doctrina.Stack

/-- The pointers `edges[i]` that the loop of a traversal reads from what
`set_getall` delivers. -/
def edgeReads (function : String) (edges : SetT) : Except Fault (List Addr) := do
  let all ← setGetall edges (some 0)
  match all.1 with
  | none => .error (.exit function "Could not get an edge list from node")
  | some bytes => (List.range all.2).mapM fun i => (bytesAt bytes (8 * i) 8).map readLE

section Enumerates

variable {σ : Type} (hash : List UInt8 → UInt64 → UInt64) (work : Traversal σ)
  (memory : Memory) (visited : SetT)

/-- The loop over the edges of a node runs to its end, and reads the pointers in
the edge set of the node, each once. -/
structure Enumerates (p : Addr) (node : GraphNode) (pending : σ) : Prop where
  returns : ∃ pending', traverseEdges hash work memory visited p pending = .ok pending'
  reads : ∃ pointers, edgeReads work.function node.edges = .ok pointers ∧
    pointers.Perm ((SetT.members node.edges).map readLE)

end Enumerates

section EdgeSets

variable {hash : List UInt8 → UInt64 → UInt64} {memory : Memory} {edges : SetT}

theorem EdgeSet.length_of_mem (h : EdgeSet hash memory edges) {k : List UInt8}
    (hk : k ∈ SetT.members edges) : k.length = 8 := by
  obtain ⟨e, _, heq, _⟩ := h.live k hk
  rw [heq, length_wordBytes]

theorem bytesAt_flatten {records : List (List UInt8)} (h : ∀ k ∈ records, k.length = 8)
    {i : Nat} (hi : i < records.length) :
    bytesAt records.flatten (8 * i) 8 = .ok records[i] := by
  induction records generalizing i with
  | nil => simp at hi
  | cons k records ih =>
      have hk := h k (by simp)
      cases i with
      | zero =>
          have hle : 8 * 0 + 8 ≤ (k :: records).flatten.length := by
            simp only [List.flatten_cons, List.length_append]
            omega
          rw [bytesAt, if_pos hle, List.flatten_cons, Nat.mul_zero, List.drop_zero,
            List.take_left' hk, List.getElem_cons_zero]
      | succ i =>
          have hrest := ih (fun k' hk' => h k' (by simp [hk'])) (i := i)
            (by simpa using hi)
          have hdrop : (k :: records).flatten.drop (8 * (i + 1)) =
              records.flatten.drop (8 * i) := by
            have hsplit : 8 * (i + 1) = k.length + 8 * i := by omega
            rw [List.flatten_cons, hsplit, List.drop_append]
            simp
          have hlen : 8 * (i + 1) + 8 ≤ (k :: records).flatten.length ↔
              8 * i + 8 ≤ records.flatten.length := by
            simp only [List.flatten_cons, List.length_append]
            omega
          rw [List.getElem_cons_succ, ← hrest, bytesAt, bytesAt, hdrop]
          simp only [hlen]

variable (h : EdgeSet hash memory edges)

include h

theorem EdgeSet.bytesAt_eq {i : Nat} (hi : i < (SetT.members edges).length) :
    (bytesAt (SetT.members edges).flatten (8 * i) 8).map readLE =
      .ok (readLE (SetT.members edges)[i]) := by
  rw [bytesAt_flatten (fun k hk => h.length_of_mem hk) hi]
  rfl

theorem EdgeSet.bytesAt_end :
    (bytesAt (SetT.members edges).flatten (8 * (SetT.members edges).length) 8).map readLE =
      .error .outOfBounds := by
  have hend : ¬8 * (SetT.members edges).length + 8 ≤ (SetT.members edges).flatten.length := by
    rw [h.length_flatten]
    omega
  rw [bytesAt, if_neg hend]
  rfl

theorem EdgeSet.mapM_range {n : Nat} (hn : n ≤ (SetT.members edges).length) :
    ((List.range n).mapM fun i =>
        (bytesAt (SetT.members edges).flatten (8 * i) 8).map readLE) =
      .ok (((SetT.members edges).take n).map readLE) := by
  induction n with
  | zero => rfl
  | succ n ih =>
      rw [List.range_succ, List.mapM_append, ih (by omega), List.mapM_cons, List.mapM_nil,
        h.bytesAt_eq (by omega), List.take_succ_eq_append_getElem (by omega), List.map_append]
      rfl

/-- An empty edge set leaves through the exit, and in any other the loop comes
to the end of the buffer after the last edge. -/
theorem EdgeSet.edgeReads_eq (function : String) :
    edgeReads function edges = .error
      (if SetT.members edges = [] then
        .exit function "Could not get an edge list from node"
      else .outOfBounds) := by
  simp only [edgeReads, h.insertOnly.setGetall_eq, bind, Except.bind, concat]
  by_cases hempty : SetT.members edges = []
  · rw [if_pos hempty, if_pos hempty]
  · rw [if_neg hempty, if_neg hempty]
    have hpos : 0 < (SetT.members edges).length := List.length_pos_iff.mpr hempty
    -- there are eight times as many rounds as edges
    have hrange : List.range (SetT.members edges).flatten.length =
        List.range (SetT.members edges).length ++ (SetT.members edges).length ::
          (List.range (7 * (SetT.members edges).length - 1)).map fun i =>
            (SetT.members edges).length + (i + 1) := by
      have hsplit : (SetT.members edges).flatten.length = (SetT.members edges).length +
          (7 * (SetT.members edges).length - 1 + 1) := by
        rw [h.length_flatten]
        omega
      rw [hsplit, List.range_add, List.range_succ_eq_map, List.map_cons, List.map_map]
      rfl
    rw [hrange]
    change List.mapM _ _ = _
    rw [List.mapM_append, h.mapM_range (Nat.le_refl _), List.mapM_cons, h.bytesAt_end]
    rfl

end EdgeSets

variable (hash : List UInt8 → UInt64 → UInt64)

/-- In no graph that calls build, and for no node of it, whatever its edges, does
the edge loop of either search read just the edges and return. -/
theorem edge_lists_never_enumerated (maxNodes : UInt64) (calls : List Call) (state : State)
    (hlegal : AlongM (graphAddEdge hash) (Legal hash) (graphCreate maxNodes) calls)
    (hrun : calls.foldlM (graphAddEdge hash) (graphCreate maxNodes) = .ok state)
    (p : Addr) (node : GraphNode) (hnode : state.memory.graphNodes.lookup p = some node)
    (visited : SetT) :
    (∀ queue, ¬Enumerates hash bfsQueue state.memory visited p node queue) ∧
      ∀ stack, ¬Enumerates hash dfsStack state.memory visited p node stack := by
  have hedges := (inv_run hlegal hrun).edges p node hnode
  constructor
  · intro queue h
    obtain ⟨pointers, hreads, _⟩ := h.reads
    rw [hedges.edgeReads_eq] at hreads
    cases hreads
  · intro stack h
    obtain ⟨pointers, hreads, _⟩ := h.reads
    rw [hedges.edgeReads_eq] at hreads
    cases hreads

/-- An edge from `a` to `b`. -/
def singleCall : List Call := [⟨[97], [98], 16, 32, 48⟩]

theorem singleCall_runs : AlongM (graphAddEdge xxh3) (Legal xxh3) (graphCreate 4) singleCall ∧
    ∃ (state : State) (node : GraphNode),
      singleCall.foldlM (graphAddEdge xxh3) (graphCreate 4) = .ok state ∧
        state.memory.graphNodes.lookup 48 = some node := by
  have hlegal : AlongM (graphAddEdge xxh3) (Legal xxh3) (graphCreate 4) singleCall := by
    decide +kernel
  have hsome : (singleCall.foldlM (graphAddEdge xxh3) (graphCreate 4)).map
      (fun state => (state.memory.graphNodes.lookup 48).isSome) = .ok true := by
    decide +kernel
  obtain ⟨state, hrun, hnode⟩ := Except.map_eq_ok hsome
  obtain ⟨node, hnode⟩ := Option.isSome_iff_exists.mp hnode
  exact ⟨hlegal, state, node, hrun, hnode⟩

theorem edge_lists_never_enumerated_single :
    ∃ (state : State) (node : GraphNode), state.memory.graphNodes.lookup 48 = some node ∧
      (∀ queue, ¬Enumerates xxh3 bfsQueue state.memory (setNew 32) 48 node queue) ∧
      ∀ stack, ¬Enumerates xxh3 dfsStack state.memory (setNew 32) 48 node stack := by
  obtain ⟨hlegal, state, node, hrun, hnode⟩ := singleCall_runs
  exact ⟨state, node, hnode, edge_lists_never_enumerated xxh3 4 singleCall state hlegal hrun 48
    node hnode (setNew 32)⟩

/-- The edge list of `a` is read beyond its one element. -/
theorem single_edge_not_enumerated :
    ¬∀ (maxNodes : UInt64) (calls : List Call) (state : State),
      AlongM (graphAddEdge xxh3) (Legal xxh3) (graphCreate maxNodes) calls →
        calls.foldlM (graphAddEdge xxh3) (graphCreate maxNodes) = .ok state →
          ∀ p node, state.memory.graphNodes.lookup p = some node →
            Enumerates xxh3 bfsQueue state.memory (setNew 32) p node (ringBufferCreate 32) ∧
              Enumerates xxh3 dfsStack state.memory (setNew 32) p node (stackCreate 32) := by
  intro h
  obtain ⟨hlegal, state, node, hrun, hnode⟩ := singleCall_runs
  obtain ⟨pending', hreturns⟩ := (h 4 singleCall state hlegal hrun 48 node hnode).1.returns
  have hedges := (inv_run hlegal hrun).edges 48 node hnode
  exact hedges.traverseEdges_ne_ok (by decide) hnode _ _ hreturns

end Doctrina.Graph
