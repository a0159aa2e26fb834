import Doctrina.Graph.Basic
import Doctrina.Lib.Execution
import Doctrina.Map.Lookup
import Doctrina.Set.InsertOnly
/-!
# The graph that a run of calls builds

`Inv` relates a state to the keys that have occurred and to the number of
edges asked for between any two of them: every key is bound in the node map to
one node, and the edge set of a node holds the edges asked for.
-/

namespace Doctrina.Graph

open Doctrina.Internal Doctrina.Lib.Execution Doctrina.Map Doctrina.Set

/-- The node map binds the key to the node at an address. -/
def Binds (state : State) (key : List UInt8) (p : Addr) : Prop :=
  ∃ j bucket, state.graph.nodes.bucket j = some bucket ∧ bucket.bytes = key ∧
    bucket.size = 8 ∧ bucket.data = some (wordBytes p)

/-- The edges at some addresses, given as the keys of a set, that lead to a
node. -/
def edgesTo (memory : Memory) (members : List (List UInt8)) (q : Addr) : Nat :=
  members.countP fun k =>
    (memory.graphEdges.lookup (readLE k)).map GraphEdge.dest = some q

def edgeCount (memory : Memory) (p q : Addr) : Nat :=
  match memory.graphNodes.lookup p with
  | none => 0
  | some node => edgesTo memory (SetT.members node.edges) q

section Invariant

variable (hash : List UInt8 → UInt64 → UInt64)

/-- An edge set holds pointers to live edges, whose destinations are live. -/
structure EdgeSet (memory : Memory) (edges : SetT) : Prop where
  insertOnly : InsertOnly hash edges
  size : edges.size = 16
  live : ∀ k ∈ SetT.members edges, ∃ e edge, k = wordBytes e ∧
    memory.graphEdges.lookup e = some edge ∧ edge.dest ∈ memory.graphNodes

structure Inv (state : State) (K : List UInt8 → Prop)
    (count : List UInt8 → List UInt8 → Nat) : Prop where
  settled : Table.Settled Map.Bucket.bytes (hash · Map.SEED) state.graph.nodes
  bound : ∀ key, K key ↔ ∃ j, state.graph.nodes.keys Map.Bucket.bytes j = some key
  bucket : ∀ j bucket, state.graph.nodes.bucket j = some bucket → ∃ p node,
    bucket.size = 8 ∧ bucket.data = some (wordBytes p) ∧ p ≠ 0 ∧
      state.memory.graphNodes.lookup p = some node ∧ node.data = bucket.bytes
  node : ∀ p node, state.memory.graphNodes.lookup p = some node → Binds state node.data p
  edges : ∀ p node, state.memory.graphNodes.lookup p = some node →
    EdgeSet hash state.memory node.edges
  counted : ∀ a b p q, Binds state a p → Binds state b q →
    edgeCount state.memory p q = count a b
  absent : ∀ a b, ¬K a ∨ ¬K b → count a b = 0

variable {hash} {state : State} {K : List UInt8 → Prop}
  {count : List UInt8 → List UInt8 → Nat}

theorem inv_create (maxNodes : UInt64) :
    Inv hash (graphCreate maxNodes) (fun _ => False) fun _ _ => 0 where
  settled := Table.settled_new maxNodes
  bound key := by simp [graphCreate, mapNew]
  bucket j bucket hbucket := by simp [graphCreate, mapNew] at hbucket
  node _ _ hnode := by cases hnode
  edges _ _ hnode := by cases hnode
  counted a b p q hp _ := by
    obtain ⟨j, bucket, hbucket, _⟩ := hp
    simp [graphCreate, mapNew] at hbucket
  absent _ _ _ := rfl

theorem Inv.node_of_binds (h : Inv hash state K count) {key : List UInt8} {p : Addr}
    (hp : Binds state key p) :
    K key ∧ p ≠ 0 ∧ ∃ node, state.memory.graphNodes.lookup p = some node ∧
      node.data = key := by
  obtain ⟨j, bucket, hbucket, hbytes, _, hdata⟩ := hp
  obtain ⟨p', node, _, hdata', hne, hnode, hkey⟩ := h.bucket j bucket hbucket
  rw [hdata, Option.some.injEq] at hdata'
  have hpp := wordBytes_inj hdata'
  subst hpp
  exact ⟨(h.bound key).mpr ⟨j, Table.keys_eq_some_iff.mpr ⟨bucket, hbucket, hbytes⟩⟩, hne,
    node, hnode, hkey.trans hbytes⟩

theorem Inv.binds_of_bound (h : Inv hash state K count) {key : List UInt8} (hkey : K key) :
    ∃ p, Binds state key p := by
  obtain ⟨j, hj⟩ := (h.bound key).mp hkey
  obtain ⟨bucket, hbucket, hbytes⟩ := Table.keys_eq_some_iff.mp hj
  obtain ⟨p, _, hsize, hdata, _⟩ := h.bucket j bucket hbucket
  exact ⟨p, j, bucket, hbucket, hbytes, hsize, hdata⟩

theorem Inv.binds_unique (h : Inv hash state K count) {key : List UInt8} {p p' : Addr}
    (hp : Binds state key p) (hp' : Binds state key p') : p = p' := by
  obtain ⟨j, bucket, hbucket, hbytes, _, hdata⟩ := hp
  obtain ⟨j', bucket', hbucket', hbytes', _, hdata'⟩ := hp'
  have hj := Table.keys_eq_some_iff.mpr ⟨bucket, hbucket, hbytes⟩
  have hj' := Table.keys_eq_some_iff.mpr ⟨bucket', hbucket', hbytes'⟩
  have hjj := Lib.Probing.Direct.injective h.settled hj hj'
  subst hjj
  rw [hbucket, Option.some.injEq] at hbucket'
  subst hbucket'
  rw [hdata, Option.some.injEq] at hdata'
  exact wordBytes_inj hdata'

theorem Inv.key_unique (h : Inv hash state K count) {key key' : List UInt8} {p : Addr}
    (hp : Binds state key p) (hp' : Binds state key' p) : key = key' := by
  obtain ⟨_, _, node, hnode, hkey⟩ := h.node_of_binds hp
  obtain ⟨_, _, node', hnode', hkey'⟩ := h.node_of_binds hp'
  rw [hnode, Option.some.injEq] at hnode'
  rw [← hkey, hnode', hkey']

theorem Inv.eq_iff_eq (h : Inv hash state K count) {key key' : List UInt8} {p p' : Addr}
    (hp : Binds state key p) (hp' : Binds state key' p') : p = p' ↔ key = key' := by
  constructor
  · intro heq
    subst heq
    exact h.key_unique hp hp'
  · intro heq
    subst heq
    exact h.binds_unique hp hp'

theorem readWord_wordBytes (p : Addr) : readWord (wordBytes p) = .ok p := by
  have htake : (wordBytes p).take 8 = wordBytes p :=
    List.take_of_length_le (Nat.le_of_eq (length_wordBytes p))
  simp [readWord, bytesAt, htake, Except.map]

theorem Inv.mapGet_of_binds (h : Inv hash state K count) {key : List UInt8} {p : Addr}
    (hp : Binds state key p) (size : Nat) :
    mapGet hash state.graph.nodes key (some size) = .ok (some (wordBytes p), 8) := by
  obtain ⟨j, bucket, hbucket, hbytes, hsize, hdata⟩ := hp
  have hstop : stop hash state.graph.nodes key = some j :=
    h.settled.stop_eq (Table.keys_eq_some_iff.mpr ⟨bucket, hbucket, hbytes⟩)
  have htake : (wordBytes p).take 8 = wordBytes p :=
    List.take_of_length_le (Nat.le_of_eq (length_wordBytes p))
  rw [mapGet_of_stop hstop hbucket]
  simp [bucketData, bucketSize, hdata, hsize, memcpyFrom, htake, Except.map]

theorem Inv.holds_iff_bound (h : Inv hash state K count) (key : List UInt8) :
    Holds hash state.graph.nodes key ↔ K key := by
  rw [h.bound key]
  exact Lib.Probing.Direct.found_iff h.settled

theorem Inv.mapGet_of_not_bound (h : Inv hash state K count) {key : List UInt8}
    (hkey : ¬K key) (size : Nat) :
    mapGet hash state.graph.nodes key (some size) = .ok (none, 0) :=
  mapGet_of_not_holds ((h.holds_iff_bound key).not.mpr hkey) size

theorem Inv.graphAddNode_of_binds (h : Inv hash state K count) {key : List UInt8} {p : Addr}
    (hp : Binds state key p) (answer : Addr) :
    graphAddNode hash state key answer = .ok (state, p) := by
  simp only [graphAddNode, h.mapGet_of_binds hp, readWord_wordBytes, bind, Except.bind]
  rfl

/-! ## Creating a node -/

/-- The state after a node for a new key was put into bucket `j`. -/
def withNode (state : State) (key : List UInt8) (p : Addr) (j : Nat) : State :=
  ⟨⟨state.graph.nodes.put j (some (Map.bucketNew key (wordBytes p)))⟩,
    { state.memory with
      graphNodes := state.memory.graphNodes.insert p ⟨key, setNew 16⟩ }⟩

theorem Inv.graphAddNode_new (h : Inv hash state K count) {key : List UInt8} (hkey : ¬K key)
    {answer : Addr} (hzero : answer ≠ 0) :
    graphAddNode hash state key answer =
        .error (.exit "graph_add_node" "Could not insert key-value pair into map") ∨
      ∃ j, stop hash state.graph.nodes key = some j ∧ state.graph.nodes.bucket j = none ∧
        graphAddNode hash state key answer = .ok (withNode state key answer j, answer) := by
  have hget := h.mapGet_of_not_bound hkey 0
  rcases mapSet_cases hash state.graph.nodes key (wordBytes answer) with
    ⟨_, hset⟩ | ⟨j, hstop, hempty, hset⟩ | ⟨j, bucket, hstop, hbucket, _⟩
  · left
    simp [graphAddNode, hget, graphNodeCreate, hzero, hset, bind, Except.bind]
  · right
    refine ⟨j, hstop, hempty, ?_⟩
    simp only [graphAddNode, hget, graphNodeCreate, hzero, hset, bind, Except.bind, if_false]
    rfl
  · have hholds := Map.holds_iff.mpr ⟨j, bucket, hstop, hbucket⟩
    exact absurd ((h.holds_iff_bound key).mp hholds) hkey

theorem EdgeSet.mono {memory memory' : Memory} {edges : SetT}
    (h : EdgeSet hash memory edges)
    (hnodes : ∀ p ∈ memory.graphNodes, p ∈ memory'.graphNodes)
    (hedges : ∀ e edge, memory.graphEdges.lookup e = some edge →
      memory'.graphEdges.lookup e = some edge) : EdgeSet hash memory' edges where
  insertOnly := h.insertOnly
  size := h.size
  live k hk := by
    obtain ⟨e, edge, hke, hedge, hdest⟩ := h.live k hk
    exact ⟨e, edge, hke, hedges e edge hedge, hnodes _ hdest⟩

theorem edgeSet_new (memory : Memory) : EdgeSet hash memory (setNew 16) where
  insertOnly := insertOnly_new 16
  size := rfl
  live k hk := by simp [SetT.members, setNew] at hk

theorem EdgeSet.edgesTo_eq {memory memory' : Memory} {edges : SetT}
    (h : EdgeSet hash memory edges)
    (hedges : ∀ e edge, memory.graphEdges.lookup e = some edge →
      memory'.graphEdges.lookup e = some edge) (q : Addr) :
    edgesTo memory' (SetT.members edges) q = edgesTo memory (SetT.members edges) q := by
  apply List.countP_congr
  intro k hk
  obtain ⟨e, edge, rfl, hedge, _⟩ := h.live k hk
  rw [readLE_wordBytes, hedges e edge hedge, hedge]

theorem EdgeSet.edgesTo_dead {memory : Memory} {edges : SetT} (h : EdgeSet hash memory edges)
    {q : Addr} (hq : q ∉ memory.graphNodes) : edgesTo memory (SetT.members edges) q = 0 := by
  rw [edgesTo, List.countP_eq_zero]
  intro k hk
  obtain ⟨e, edge, rfl, hedge, hdest⟩ := h.live k hk
  have hne : edge.dest ≠ q := fun heq => hq (heq ▸ hdest)
  rw [readLE_wordBytes, hedge]
  simpa using hne

section WithNode

variable (h : Inv hash state K count) {key : List UInt8} (hkey : ¬K key) {p : Addr} {j : Nat}
  (hstop : stop hash state.graph.nodes key = some j)
  (hempty : state.graph.nodes.bucket j = none) (hfresh : p ∉ state.memory.graphNodes)

include hstop hempty in
theorem binds_withNode_iff (key' : List UInt8) (p' : Addr) :
    Binds (withNode state key p j) key' p' ↔ Binds state key' p' ∨ (key' = key ∧ p' = p) := by
  have hj := Map.stop_lt hstop
  have hlen : 0 < (wordBytes p).length := by simp
  constructor
  · intro hbinds
    obtain ⟨i, bucket, hbucket, hbytes, hsize, hdata⟩ := hbinds
    by_cases hij : i = j
    · rw [hij, withNode, Table.bucket_put_self _ hj, Option.some.injEq] at hbucket
      subst hbucket
      have hdata' : duplicate (wordBytes p) = some (wordBytes p') := hdata
      rw [duplicate, if_pos hlen, Option.some.injEq] at hdata'
      rw [Map.bytes_bucketNew] at hbytes
      exact .inr ⟨hbytes.symm, (wordBytes_inj hdata').symm⟩
    · rw [withNode, Table.bucket_put_ne _ hj _ hij] at hbucket
      exact .inl ⟨i, bucket, hbucket, hbytes, hsize, hdata⟩
  · intro hbinds
    rcases hbinds with ⟨i, bucket, hbucket, hbytes, hsize, hdata⟩ | ⟨rfl, rfl⟩
    · have hij : i ≠ j := by
        intro hij
        rw [hij, hempty] at hbucket
        cases hbucket
      refine ⟨i, bucket, ?_, hbytes, hsize, hdata⟩
      rw [withNode, Table.bucket_put_ne _ hj _ hij, hbucket]
    · refine ⟨j, Map.bucketNew key' (wordBytes p'), ?_, Map.bytes_bucketNew _ _, ?_, ?_⟩
      · rw [withNode, Table.bucket_put_self _ hj]
      · simp [Map.bucketNew]
      · simp [Map.bucketNew, duplicate]

theorem lookup_withNode (p' : Addr) :
    (withNode state key p j).memory.graphNodes.lookup p' =
      if p' = p then some ⟨key, setNew 16⟩ else state.memory.graphNodes.lookup p' :=
  Store.lookup_insert_eq _ _ _ _

include hfresh in
theorem edgeCount_from_fresh (q : Addr) : edgeCount state.memory p q = 0 := by
  rw [edgeCount, Finmap.lookup_eq_none.mpr hfresh]

include h hfresh in
theorem Inv.edgeCount_to_fresh (q : Addr) : edgeCount state.memory q p = 0 := by
  rw [edgeCount]
  cases hnode : state.memory.graphNodes.lookup q with
  | none => rfl
  | some node => exact (h.edges q node hnode).edgesTo_dead hfresh

include hfresh in
theorem edgeCount_withNode (q r : Addr) :
    edgeCount (withNode state key p j).memory q r = edgeCount state.memory q r := by
  rw [edgeCount, lookup_withNode]
  by_cases hqp : q = p
  · rw [if_pos hqp, hqp, edgeCount_from_fresh hfresh]
    simp [edgesTo, SetT.members, setNew]
  · rw [if_neg hqp]
    rfl

include h hkey hstop hempty hfresh in
theorem Inv.withNode (hp : p ≠ 0) :
    Inv hash (withNode state key p j) (fun k => K k ∨ k = key) count := by
  have hj := Map.stop_lt hstop
  have hnodes : ∀ q ∈ state.memory.graphNodes,
      q ∈ (Graph.withNode state key p j).memory.graphNodes := fun q hq =>
    Finmap.mem_insert.mpr (.inr hq)
  have hold : ∀ {q node}, state.memory.graphNodes.lookup q = some node → q ≠ p := by
    intro q node hnode heq
    exact hfresh (heq ▸ Finmap.mem_of_lookup_eq_some hnode)
  constructor
  case settled => exact h.settled.put hstop hempty (Map.bytes_bucketNew _ _)
  case bound =>
    intro key'
    rw [h.bound key', ← Table.mem_members, ← Table.mem_members, Graph.withNode,
      Table.mem_members_put hj hempty, Map.bytes_bucketNew]
  case bucket =>
    intro i bucket hbucket
    by_cases hij : i = j
    · rw [hij, Graph.withNode, Table.bucket_put_self _ hj, Option.some.injEq] at hbucket
      subst hbucket
      refine ⟨p, ⟨key, setNew 16⟩, ?_, ?_, hp, ?_, ?_⟩
      · simp [Map.bucketNew]
      · simp [Map.bucketNew, duplicate]
      · rw [lookup_withNode, if_pos rfl]
      · rw [Map.bytes_bucketNew]
    · rw [Graph.withNode, Table.bucket_put_ne _ hj _ hij] at hbucket
      obtain ⟨q, node, hsize, hdata, hq, hnode, hdata'⟩ := h.bucket i bucket hbucket
      refine ⟨q, node, hsize, hdata, hq, ?_, hdata'⟩
      rw [lookup_withNode, if_neg (hold hnode), hnode]
  case node =>
    intro q node hnode
    rw [lookup_withNode] at hnode
    rw [binds_withNode_iff hstop hempty]
    by_cases hqp : q = p
    · rw [if_pos hqp, Option.some.injEq] at hnode
      exact .inr ⟨hnode ▸ rfl, hqp⟩
    · rw [if_neg hqp] at hnode
      exact .inl (h.node q node hnode)
  case edges =>
    intro q node hnode
    rw [lookup_withNode] at hnode
    by_cases hqp : q = p
    · rw [if_pos hqp, Option.some.injEq] at hnode
      subst hnode
      exact edgeSet_new _
    · rw [if_neg hqp] at hnode
      exact (h.edges q node hnode).mono hnodes fun _ _ hedge => hedge
  case counted =>
    intro a b q r hq hr
    rw [binds_withNode_iff hstop hempty] at hq hr
    rw [edgeCount_withNode hfresh]
    rcases hq with hq | ⟨rfl, rfl⟩
    · rcases hr with hr | ⟨rfl, rfl⟩
      · exact h.counted a b q r hq hr
      · rw [h.edgeCount_to_fresh hfresh, h.absent a b (.inr hkey)]
    · rw [edgeCount_from_fresh hfresh, h.absent a b (.inl hkey)]
  case absent =>
    intro a b hab
    exact h.absent a b (hab.imp (fun hn hK => hn (.inl hK)) fun hn hK => hn (.inl hK))

end WithNode

/-! ## Creating an edge -/

def withEdge (state : State) (e q : Addr) : State :=
  { state with memory.graphEdges := state.memory.graphEdges.insert e ⟨q⟩ }

/-- The edge is in no edge set. -/
def Unused (state : State) (e : Addr) : Prop :=
  ∀ p node, state.memory.graphNodes.lookup p = some node →
    wordBytes e ∉ SetT.members node.edges

theorem Inv.unused (h : Inv hash state K count) {e : Addr}
    (hfresh : e ∉ state.memory.graphEdges) : Unused state e := by
  intro p node hnode hmem
  obtain ⟨e', edge, hee, hedge, _⟩ := (h.edges p node hnode).live _ hmem
  rw [wordBytes_inj hee] at hfresh
  exact hfresh (Finmap.mem_of_lookup_eq_some hedge)

theorem unused_withNode {e : Addr} (h : Unused state e) (key : List UInt8) (p : Addr)
    (j : Nat) : Unused (withNode state key p j) e := by
  intro q node hnode
  rw [lookup_withNode] at hnode
  by_cases hqp : q = p
  · rw [if_pos hqp, Option.some.injEq] at hnode
    simp [← hnode, SetT.members, setNew]
  · rw [if_neg hqp] at hnode
    exact h q node hnode

theorem Inv.withEdge (h : Inv hash state K count) {e : Addr}
    (hfresh : e ∉ state.memory.graphEdges) (q : Addr) :
    Inv hash (withEdge state e q) K count := by
  have hedges : ∀ e' edge, state.memory.graphEdges.lookup e' = some edge →
      (Graph.withEdge state e q).memory.graphEdges.lookup e' = some edge := by
    intro e' edge hedge
    have hne : e' ≠ e := fun heq => hfresh (heq ▸ Finmap.mem_of_lookup_eq_some hedge)
    rw [Graph.withEdge, Store.lookup_insert_eq, if_neg hne, hedge]
  constructor
  case settled => exact h.settled
  case bound => exact h.bound
  case bucket => exact h.bucket
  case node => exact h.node
  case edges =>
    intro p node hnode
    exact (h.edges p node hnode).mono (fun _ hp => hp) hedges
  case counted =>
    intro a b p r hp hr
    obtain ⟨_, _, node, hnode, _⟩ := h.node_of_binds hp
    have hold := h.counted a b p r hp hr
    rw [edgeCount, hnode] at hold
    rw [edgeCount, show (Graph.withEdge state e q).memory.graphNodes.lookup p = some node
      from hnode]
    exact ((h.edges p node hnode).edgesTo_eq hedges r).trans hold
  case absent => exact h.absent

/-! ## Adding an edge to its source -/

/-- The state after the edge set of a node was replaced. -/
def withEdges (state : State) (p : Addr) (node : GraphNode) (edges : SetT) : State :=
  { state with
    memory.graphNodes := state.memory.graphNodes.insert p { node with edges } }

theorem lookup_withEdges (p : Addr) (node : GraphNode) (edges : SetT) (p' : Addr) :
    (withEdges state p node edges).memory.graphNodes.lookup p' =
      if p' = p then some { node with edges } else state.memory.graphNodes.lookup p' :=
  Store.lookup_insert_eq _ _ _ _

/-- The edge is added, or all sixteen buckets are taken. -/
theorem Inv.graphNodeAddEdge_cases (h : Inv hash state K count) {a : List UInt8} {p e : Addr}
    (hp : Binds state a p) (hunused : Unused state e) :
    ∃ node, state.memory.graphNodes.lookup p = some node ∧
      ((graphNodeAddEdge hash state.memory p e =
          .error (.exit "graph_node_add_edge" "Could not add edge to the set") ∧
        (SetT.members node.edges).length = 16) ∨
      ∃ edges, graphNodeAddEdge hash state.memory p e =
          .ok (withEdges state p node edges).memory ∧
        InsertOnly hash edges ∧ edges.size = 16 ∧
        (SetT.members edges).Perm (wordBytes e :: SetT.members node.edges)) := by
  obtain ⟨_, hzero, node, hnode, _⟩ := h.node_of_binds hp
  have hset := h.edges p node hnode
  have hload : state.memory.graphNodes.load (pointer p) = .ok node := by
    rw [pointer, if_neg hzero]
    exact Store.load_eq hnode
  have hmodify : ∀ f, state.memory.graphNodes.modify (pointer p) f =
      .ok (state.memory.graphNodes.insert p (f node)) := by
    intro f
    rw [pointer, if_neg hzero]
    exact Store.modify_eq hnode f
  have hmem := hunused p node hnode
  refine ⟨node, hnode, ?_⟩
  rcases hset.insertOnly.setAdd_of_not_mem hmem with ⟨hstop, hadd⟩ | ⟨j, hstop, hempty, hadd⟩
  · left
    refine ⟨?_, ?_⟩
    · simp [graphNodeAddEdge, hload, hadd, bind, Except.bind]
    · have hdvd : node.edges.size.toNat ∣ 2 ^ 64 := by
        rw [hset.size]
        decide
      rw [SetT.members, Table.length_members_of_stop hdvd hstop, hset.size]
      rfl
  · right
    refine ⟨node.edges.put j (some (Set.bucketNew (wordBytes e))), ?_, ?_, hset.size, ?_⟩
    · simp only [graphNodeAddEdge, hload, hadd, hmodify, bind, Except.bind]
      rfl
    · have hstep := hset.insertOnly.step (wordBytes_ne_nil e)
      rw [hadd] at hstep
      exact hstep.1
    · have hperm := Table.members_put_perm Set.Bucket.bytes (Table.stop_lt hstop)
        hempty (Set.bucketNew (wordBytes e))
      rwa [Set.bytes_bucketNew] at hperm

theorem edgeCount_withEdges {p q e : Addr} {node : GraphNode}
    (hnode : state.memory.graphNodes.lookup p = some node)
    (he : state.memory.graphEdges.lookup e = some ⟨q⟩) {edges : SetT}
    (hperm : (SetT.members edges).Perm (wordBytes e :: SetT.members node.edges))
    (r s : Addr) :
    edgeCount (withEdges state p node edges).memory r s =
      edgeCount state.memory r s + if r = p ∧ s = q then 1 else 0 := by
  rw [edgeCount, lookup_withEdges]
  by_cases hrp : r = p
  · rw [if_pos hrp, hrp, edgeCount, hnode]
    have hedge : (withEdges state p node edges).memory.graphEdges.lookup e = some ⟨q⟩ := he
    simp only [edgesTo]
    rw [hperm.countP_eq, List.countP_cons, readLE_wordBytes, hedge]
    simp only [Option.map_some, Option.some.injEq, decide_eq_true_eq, true_and, @eq_comm _ q]
    rfl
  · rw [if_neg hrp, if_neg fun hends => hrp hends.1]
    rfl

theorem Inv.withEdges (h : Inv hash state K count) {a b : List UInt8} {p q e : Addr}
    (hp : Binds state a p) (hq : Binds state b q)
    (he : state.memory.graphEdges.lookup e = some ⟨q⟩) {node : GraphNode}
    (hnode : state.memory.graphNodes.lookup p = some node) {edges : SetT}
    (hinsert : InsertOnly hash edges) (hsize : edges.size = 16)
    (hperm : (SetT.members edges).Perm (wordBytes e :: SetT.members node.edges)) :
    Inv hash (withEdges state p node edges) K
      (fun x y => count x y + if x = a ∧ y = b then 1 else 0) := by
  have hlive : ∀ r, r ∈ state.memory.graphNodes →
      r ∈ (Graph.withEdges state p node edges).memory.graphNodes := fun r hr =>
    Finmap.mem_insert.mpr (.inr hr)
  have hqlive : q ∈ state.memory.graphNodes := by
    obtain ⟨_, _, node', hnode', _⟩ := h.node_of_binds hq
    exact Finmap.mem_of_lookup_eq_some hnode'
  constructor
  case settled => exact h.settled
  case bound => exact h.bound
  case bucket =>
    intro j bucket hbucket
    obtain ⟨r, node', hsize', hdata, hr, hnode', hkey⟩ := h.bucket j bucket hbucket
    by_cases hrp : r = p
    · rw [hrp, hnode, Option.some.injEq] at hnode'
      refine ⟨r, { node with edges }, hsize', hdata, hr, ?_, hnode' ▸ hkey⟩
      rw [lookup_withEdges, if_pos hrp]
    · refine ⟨r, node', hsize', hdata, hr, ?_, hkey⟩
      rw [lookup_withEdges, if_neg hrp, hnode']
  case node =>
    intro r node' hnode'
    rw [lookup_withEdges] at hnode'
    by_cases hrp : r = p
    · rw [if_pos hrp, Option.some.injEq] at hnode'
      rw [← hnode', hrp]
      exact h.node p node hnode
    · rw [if_neg hrp] at hnode'
      exact h.node r node' hnode'
  case edges =>
    intro r node' hnode'
    rw [lookup_withEdges] at hnode'
    by_cases hrp : r = p
    · rw [if_pos hrp, Option.some.injEq] at hnode'
      subst hnode'
      refine ⟨hinsert, hsize, fun k hk => ?_⟩
      rcases List.mem_cons.mp (hperm.mem_iff.mp hk) with heq | hold
      · exact ⟨e, ⟨q⟩, heq, he, hlive q hqlive⟩
      · obtain ⟨e', edge, hke, hedge, hdest⟩ := (h.edges p node hnode).live k hold
        exact ⟨e', edge, hke, hedge, hlive _ hdest⟩
    · rw [if_neg hrp] at hnode'
      exact (h.edges r node' hnode').mono hlive fun _ _ hedge => hedge
  case counted =>
    intro x y r s hr hs
    -- the new edge leads from the node of `a` to the node of `b`, and the nodes
    -- of other keys are others
    have hends : r = p ∧ s = q ↔ x = a ∧ y = b := by
      rw [h.eq_iff_eq hr hp, h.eq_iff_eq hs hq]
    rw [edgeCount_withEdges hnode he hperm, h.counted x y r s hr hs]
    simp only [hends]
  case absent =>
    intro x y hxy
    have hKa := (h.node_of_binds hp).1
    have hKb := (h.node_of_binds hq).1
    have hne : ¬(x = a ∧ y = b) := by
      intro heq
      cases hxy with
      | inl hx => exact hx (heq.1 ▸ hKa)
      | inr hy => exact hy (heq.2 ▸ hKb)
    rw [h.absent x y hxy, if_neg hne]

end Invariant

end Doctrina.Graph
