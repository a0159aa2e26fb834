import Doctrina.Graph.Capacity
import Doctrina.Graph.Requeue
/-!
# What the destructors of graph.c free

`graph_node_destroy` reads its edge list as the searches do, by a count of
bytes, and returns early when there is no list; `graph_destroy` frees the node
map and the graph.  No node is ever freed.
-/

namespace Doctrina.Graph

open Doctrina.Internal Doctrina.Lib.Execution Doctrina.Map Doctrina.Set

def graphEdgeDestroy (memory : Memory) (self : Addr) : Except Fault Memory :=
  if self = 0 then .ok memory
  else do
    let graphEdges ← memory.graphEdges.modify (pointer self) fun edge => { edge with dest := 0 }
    let graphEdges ← graphEdges.free self
    return { memory with graphEdges }

/-- The loop body of `graph_node_destroy`. -/
def destroyEdge (edges : List UInt8) (memory : Memory) (i : Nat) : Except Fault Memory := do
  let edge ← (bytesAt edges (8 * i) 8).map readLE
  if edge = 0 then return memory
  else graphEdgeDestroy memory edge

/-- The edge set goes with the node that it is a part of. -/
def graphNodeDestroy (memory : Memory) (self : Addr) : Except Fault Memory :=
  if self = 0 then .ok memory
  else do
    let node ← memory.graphNodes.load (pointer self)
    let all ← setGetall node.edges (some 0)
    match all.1 with
    | none => return memory
    | some edges =>
        let memory ← (List.range all.2).foldlM (destroyEdge edges) memory
        let graphNodes ← memory.graphNodes.free self
        return { memory with graphNodes }

/-- The memory once the graph and its node map are freed.  The loop over the
nodes is commented out. -/
def graphDestroy (self : State) : Memory := self.memory

/-! ## The edges of a node -/

section Edges

variable {hash : List UInt8 → UInt64 → UInt64} {memory memory' : Memory} {edges : SetT}

theorem graphEdgeDestroy_eq {e : Addr} (hzero : e ≠ 0) (he : e ∈ memory.graphEdges) :
    graphEdgeDestroy memory e =
      .ok { memory with graphEdges := memory.graphEdges.erase e } := by
  obtain ⟨edge, hedge⟩ := Finmap.mem_iff.mp he
  have hinsert : (memory.graphEdges.insert e { edge with dest := 0 }).lookup e =
      some { edge with dest := 0 } := Finmap.lookup_insert _
  have herase : (memory.graphEdges.insert e { edge with dest := 0 }).erase e =
      memory.graphEdges.erase e := by
    apply Finmap.ext_lookup
    intro b
    rw [Store.lookup_erase_eq, Store.lookup_erase_eq]
    by_cases hb : b = e
    · rw [if_pos hb, if_pos hb]
    · rw [if_neg hb, if_neg hb, Finmap.lookup_insert_of_ne _ hb]
  rw [graphEdgeDestroy, if_neg hzero, pointer, if_neg hzero, Store.modify_eq hedge]
  simp only [bind, Except.bind, Store.free_eq hinsert, herase]
  rfl

structure Without (memory : Memory) (keys : List (List UInt8)) (memory' : Memory) : Prop where
  nodes : memory'.graphNodes = memory.graphNodes
  edges : ∀ e, memory'.graphEdges.lookup e =
    if wordBytes e ∈ keys then none else memory.graphEdges.lookup e

variable (h : EdgeSet hash memory edges) (hnull : 0 ∉ memory.graphEdges)

include h

/-- Behind the last edge the loop reads beyond its list. -/
theorem EdgeSet.destroyEdge_end (memory' : Memory) :
    destroyEdge (SetT.members edges).flatten memory' (SetT.members edges).length =
      .error .outOfBounds := by
  rw [destroyEdge, h.bytesAt_end]
  rfl

theorem EdgeSet.range_rounds (hne : SetT.members edges ≠ []) : ∃ later,
    List.range (SetT.members edges).flatten.length =
      List.range (SetT.members edges).length ++ (SetT.members edges).length :: later := by
  have hpos : 0 < (SetT.members edges).length := List.length_pos_iff.mpr hne
  have hsplit : (SetT.members edges).flatten.length = (SetT.members edges).length +
      (7 * (SetT.members edges).length - 1 + 1) := by
    rw [h.length_flatten]
    omega
  rw [hsplit, List.range_add, List.range_succ_eq_map, List.map_cons]
  exact ⟨_, rfl⟩

include hnull

theorem EdgeSet.destroyEdge_eq {i : Nat} (hi : i < (SetT.members edges).length)
    (hmemory : Without memory ((SetT.members edges).take i) memory') :
    ∃ memory'', destroyEdge (SetT.members edges).flatten memory' i = .ok memory'' ∧
      Without memory ((SetT.members edges).take (i + 1)) memory'' := by
  obtain ⟨e, edge, hkey, hedge, _⟩ := h.live _ (List.getElem_mem hi)
  have hzero : e ≠ 0 := by
    rintro rfl
    exact hnull (Finmap.mem_of_lookup_eq_some hedge)
  have hnodup : (SetT.members edges).Nodup := h.insertOnly.settled.nodup_members
  have hnew : wordBytes e ∉ (SetT.members edges).take i := by
    intro hmem
    rw [← hkey] at hmem
    obtain ⟨k, hk, heq⟩ := List.mem_take_iff_getElem.mp hmem
    have hindex : k = i := hnodup.getElem_inj_iff.mp heq
    omega
  have hlive : e ∈ memory'.graphEdges := by
    apply Finmap.mem_of_lookup_eq_some (b := edge)
    rw [hmemory.edges, if_neg hnew, hedge]
  refine ⟨{ memory' with graphEdges := memory'.graphEdges.erase e }, ?_, hmemory.nodes, ?_⟩
  · rw [destroyEdge, h.bytesAt_eq hi, hkey, readLE_wordBytes]
    simp only [bind, Except.bind, if_neg hzero]
    exact graphEdgeDestroy_eq hzero hlive
  · intro e'
    rw [Store.lookup_erase_eq, hmemory.edges, List.take_succ_eq_append_getElem hi, hkey]
    by_cases he : e' = e
    · simp [he]
    · have hne : wordBytes e' ≠ wordBytes e := fun heq => he (wordBytes_inj heq)
      simp [he, hne]

theorem EdgeSet.destroyEdges {n : Nat} (hn : n ≤ (SetT.members edges).length) :
    ∃ memory', (List.range n).foldlM (destroyEdge (SetT.members edges).flatten) memory =
        .ok memory' ∧ Without memory ((SetT.members edges).take n) memory' := by
  induction n with
  | zero => exact ⟨memory, rfl, rfl, fun e => by simp⟩
  | succ n ih =>
      obtain ⟨memory', hrun, hmemory⟩ := ih (by omega)
      obtain ⟨memory'', hround, hnext⟩ := h.destroyEdge_eq hnull (by omega) hmemory
      refine ⟨memory'', ?_, hnext⟩
      rw [List.range_succ]
      exact foldlM_append_ok.mpr ⟨memory', hrun, foldlM_cons_ok.mpr ⟨memory'', hround, rfl⟩⟩

/-- A node without edges is left alone, and of any other the edges are freed
before the loop fails. -/
theorem EdgeSet.graphNodeDestroy_eq {p : Addr} (hp : p ≠ 0) {node : GraphNode}
    (hnode : memory.graphNodes.lookup p = some node) (hedges : node.edges = edges) :
    graphNodeDestroy memory p =
      if SetT.members edges = [] then .ok memory else .error .outOfBounds := by
  have hload : memory.graphNodes.load (pointer p) = .ok node := by
    rw [pointer, if_neg hp, Store.load_eq hnode]
  rw [graphNodeDestroy, if_neg hp, hload]
  simp only [bind, Except.bind, hedges, h.insertOnly.setGetall_eq, concat]
  by_cases hempty : SetT.members edges = []
  · rw [if_pos hempty, if_pos hempty]
    rfl
  · rw [if_neg hempty, if_neg hempty]
    obtain ⟨later, hrange⟩ := h.range_rounds hempty
    obtain ⟨memory', hrun, _⟩ := h.destroyEdges hnull (Nat.le_refl _)
    have hfold : (List.range (SetT.members edges).flatten.length).foldlM
        (destroyEdge (SetT.members edges).flatten) memory = .error .outOfBounds := by
      rw [hrange, List.foldlM_append, hrun]
      simp only [bind, Except.bind, List.foldlM_cons, h.destroyEdge_end]
    simp only [hfold]

end Edges

/-! ## Runs -/

section Runs

variable (hash : List UInt8 → UInt64 → UInt64)

/-- What the destruction of nodes does in the graph of some calls.  Nodes are
destroyed without a fault as long as none of them has an edge; none of these is
freed.  Of a node with edges these are freed, and the loop goes on behind the
end of its list. -/
structure FreesNoNode (calls : List Call) (state : State) : Prop where
  returns : ∀ ps : List Addr, (∀ p ∈ ps, p ∈ state.memory.graphNodes) →
    ((∃ memory', ps.foldlM graphNodeDestroy state.memory = .ok memory') ↔
      ∀ key p, p ∈ ps → nodeOf hash state key = some p → outDegree calls key = 0)
  kept : ∀ (ps : List Addr) memory', (∀ p ∈ ps, p ∈ state.memory.graphNodes) →
    ps.foldlM graphNodeDestroy state.memory = .ok memory' → memory' = state.memory
  edges : ∀ p node, state.memory.graphNodes.lookup p = some node →
    SetT.members node.edges ≠ [] → ∃ all memory', setGetall node.edges (some 0) =
        .ok (some all, 8 * (SetT.members node.edges).length) ∧
      (List.range (SetT.members node.edges).length).foldlM (destroyEdge all) state.memory =
        .ok memory' ∧
      Without state.memory (SetT.members node.edges) memory' ∧
      destroyEdge all memory' (SetT.members node.edges).length = .error .outOfBounds ∧
      graphNodeDestroy state.memory p = .error .outOfBounds

/-- No sequence of calls of `graph_node_destroy` frees a node of a graph. -/
theorem nodes_never_freed (maxNodes : UInt64) (calls : List Call) (state : State)
    (hlegal : AlongM (graphAddEdge hash) (Legal hash) (graphCreate maxNodes) calls)
    (hrun : calls.foldlM (graphAddEdge hash) (graphCreate maxNodes) = .ok state) :
    FreesNoNode hash calls state := by
  have hinv := inv_run hlegal hrun
  have hnull := graphAddEdge_run_null hrun
  have hcall : ∀ p ∈ state.memory.graphNodes, ∃ key, nodeOf hash state key = some p ∧
      graphNodeDestroy state.memory p =
        if outDegree calls key = 0 then .ok state.memory else .error .outOfBounds := by
    intro p hp
    obtain ⟨node, hnode⟩ := Finmap.mem_iff.mp hp
    have hbinds := hinv.node p node hnode
    have hzero : p ≠ 0 := (hinv.node_of_binds hbinds).2.1
    refine ⟨node.data, (hinv.nodeOf_iff node.data p).mpr hbinds, ?_⟩
    rw [(hinv.edges p node hnode).graphNodeDestroy_eq hnull hzero hnode rfl,
      ← hinv.length_edges hbinds hnode]
    simp only [List.length_eq_zero_iff]
  have hkey : ∀ key key' p, nodeOf hash state key = some p → nodeOf hash state key' = some p →
      key = key' := hinv.represents.injective
  constructor
  case returns =>
    intro ps hps
    induction ps with
    | nil => exact iff_of_true ⟨_, rfl⟩ fun _ _ hp => by cases hp
    | cons p ps ih =>
        obtain ⟨key, hnode, heq⟩ := hcall p (hps p List.mem_cons_self)
        have hrest := ih fun p' hp' => hps p' (List.mem_cons_of_mem p hp')
        rw [List.foldlM_cons, heq]
        by_cases hdegree : outDegree calls key = 0
        · rw [if_pos hdegree]
          refine hrest.trans ⟨fun h key' p' hp' hnode' => ?_, fun h key' p' hp' =>
            h key' p' (List.mem_cons_of_mem p hp')⟩
          rcases List.mem_cons.mp hp' with rfl | hp'
          · rw [hkey key' key p' hnode' hnode, hdegree]
          · exact h key' p' hp' hnode'
        · rw [if_neg hdegree]
          refine iff_of_false (fun h => ?_) fun h => hdegree (h key p List.mem_cons_self hnode)
          obtain ⟨_, h⟩ := h
          cases h
  case kept =>
    intro ps memory' hps hrun'
    induction ps with
    | nil =>
        cases hrun'
        rfl
    | cons p ps ih =>
        obtain ⟨key, _, heq⟩ := hcall p (hps p List.mem_cons_self)
        obtain ⟨memory₁, hfirst, hrest⟩ := foldlM_cons_ok.mp hrun'
        rw [heq] at hfirst
        split at hfirst
        · cases hfirst
          exact ih (fun p' hp' => hps p' (List.mem_cons_of_mem p hp')) hrest
        · cases hfirst
  case edges =>
    intro p node hnode hne
    have hedges := hinv.edges p node hnode
    have hzero : p ≠ 0 := (hinv.node_of_binds (hinv.node p node hnode)).2.1
    obtain ⟨memory', hloop, hmemory⟩ := hedges.destroyEdges hnull (Nat.le_refl _)
    rw [List.take_length] at hmemory
    refine ⟨_, memory', ?_, hloop, hmemory, hedges.destroyEdge_end memory', ?_⟩
    · rw [hedges.insertOnly.setGetall_eq, concat, if_neg hne, hedges.length_flatten]
    · rw [hedges.graphNodeDestroy_eq hnull hzero hnode rfl, if_neg hne]

theorem graphAddEdge_graphEdges {state state' : State} {call : Call}
    (hadd : graphAddEdge hash state call = .ok state') :
    ∃ q, state'.memory.graphEdges = state.memory.graphEdges.insert call.edge ⟨q⟩ := by
  obtain ⟨dst, hdst, hrest⟩ := Except.bind_eq_ok hadd
  obtain ⟨edge, hedge, hrest⟩ := Except.bind_eq_ok hrest
  obtain ⟨src, hsrc, hrest⟩ := Except.bind_eq_ok hrest
  obtain ⟨memory, hmemory, hrest⟩ := Except.bind_eq_ok hrest
  cases hrest
  refine ⟨dst.2, ?_⟩
  change memory.graphEdges = _
  rw [graphNodeAddEdge_graphEdges hmemory, graphAddNode_graphEdges hsrc]
  unfold graphEdgeCreate at hedge
  split at hedge
  · cases hedge
  · cases hedge
    change dst.1.memory.graphEdges.insert call.edge ⟨dst.2⟩ = _
    rw [graphAddNode_graphEdges hdst]

theorem card_graphEdges {calls : List Call} {state state' : State}
    (hlegal : AlongM (graphAddEdge hash) (Legal hash) state calls)
    (hrun : calls.foldlM (graphAddEdge hash) state = .ok state') :
    state'.memory.graphEdges.keys.card = state.memory.graphEdges.keys.card + calls.length := by
  induction calls generalizing state with
  | nil =>
      cases hrun
      rfl
  | cons call calls ih =>
      obtain ⟨next, hnext, hrest⟩ := foldlM_cons_ok.mp hrun
      obtain ⟨hcall, htail⟩ := (alongM_cons state call calls).mp hlegal
      obtain ⟨q, hedges⟩ := graphAddEdge_graphEdges hash hnext
      have hfresh : call.edge ∉ state.memory.graphEdges :=
        (hcall.2 call.edge (by simp [Call.answers])).2.2
      have hkeys : (state.memory.graphEdges.insert call.edge ⟨q⟩).keys =
          insert call.edge state.memory.graphEdges.keys := by
        ext e
        rw [Finmap.mem_keys, Finmap.mem_insert, Finset.mem_insert, Finmap.mem_keys]
      rw [ih (htail next hnext) hrest, hedges, hkeys,
        Finset.card_insert_of_notMem (mt Finmap.mem_keys.mp hfresh), List.length_cons]
      omega

/-- After `graph_destroy` there remain a node for each key and an edge for each
call. -/
theorem graph_destroy_leaks (maxNodes : UInt64) (calls : List Call) (state : State)
    (hlegal : AlongM (graphAddEdge hash) (Legal hash) (graphCreate maxNodes) calls)
    (hrun : calls.foldlM (graphAddEdge hash) (graphCreate maxNodes) = .ok state) :
    (graphDestroy state).graphNodes.keys.card = (nodeKeys calls).card ∧
      (graphDestroy state).graphEdges.keys.card = calls.length := by
  have hinv := inv_run hlegal hrun
  constructor
  · symm
    refine Finset.card_bij (fun key hkey => (hinv.binds_of_bound (mem_nodeKeys.mp hkey)).choose)
      (fun key hkey => ?_) (fun key hkey key' hkey' heq => ?_) fun p hp => ?_
    · obtain ⟨_, _, node, hnode, _⟩ :=
        hinv.node_of_binds (hinv.binds_of_bound (mem_nodeKeys.mp hkey)).choose_spec
      exact Finmap.mem_keys.mpr (Finmap.mem_of_lookup_eq_some hnode)
    · have hbinds := (hinv.binds_of_bound (mem_nodeKeys.mp hkey)).choose_spec
      have hbinds' := (hinv.binds_of_bound (mem_nodeKeys.mp hkey')).choose_spec
      exact (hinv.eq_iff_eq hbinds hbinds').mp heq
    · obtain ⟨node, hnode⟩ := Finmap.mem_iff.mp (Finmap.mem_keys.mp hp)
      have hbinds := hinv.node p node hnode
      have hkey : node.data ∈ nodeKeys calls := mem_nodeKeys.mpr (hinv.node_of_binds hbinds).1
      exact ⟨node.data, hkey, hinv.binds_unique
        (hinv.binds_of_bound (mem_nodeKeys.mp hkey)).choose_spec hbinds⟩
  · have hcard := card_graphEdges hash hlegal hrun
    rw [graphDestroy, hcard]
    simp [graphCreate]

end Runs

theorem loopCalls_runs : AlongM (graphAddEdge xxh3) (Legal xxh3) (graphCreate 4) loopCalls ∧
    ∃ state, loopCalls.foldlM (graphAddEdge xxh3) (graphCreate 4) = .ok state := by
  have hok : (loopCalls.foldlM (graphAddEdge xxh3) (graphCreate 4)).map (fun _ => ()) =
      .ok () := by decide +kernel
  obtain ⟨state, hrun, _⟩ := Except.map_eq_ok hok
  exact ⟨by decide +kernel, state, hrun⟩

theorem nodes_never_freed_loop :
    ∃ state, loopCalls.foldlM (graphAddEdge xxh3) (graphCreate 4) = .ok state ∧
      FreesNoNode xxh3 loopCalls state := by
  obtain ⟨hlegal, state, hrun⟩ := loopCalls_runs
  exact ⟨state, hrun, nodes_never_freed xxh3 4 loopCalls state hlegal hrun⟩

theorem graph_destroy_leaks_loop :
    ∃ state, loopCalls.foldlM (graphAddEdge xxh3) (graphCreate 4) = .ok state ∧
      (graphDestroy state).graphNodes.keys.card = (nodeKeys loopCalls).card ∧
      (graphDestroy state).graphEdges.keys.card = loopCalls.length := by
  obtain ⟨hlegal, state, hrun⟩ := loopCalls_runs
  exact ⟨state, hrun, graph_destroy_leaks xxh3 4 loopCalls state hlegal hrun⟩

end Doctrina.Graph
