import Doctrina.Graph.Runs
import Mathlib.Data.List.Perm.Basic
/-!
# Which graphs can be built

Whether a run of calls returns depends on nothing but its edges: there may be as
many keys as the node map has buckets, and each may be the source of sixteen
edges.  The hash, the addresses and the order of the calls do not matter.
-/

namespace Doctrina.Graph

open Doctrina.Internal Doctrina.Lib.Execution Doctrina.Map Doctrina.Set

def nodeKeys (calls : List Call) : Finset (List UInt8) :=
  (calls.flatMap fun call => [call.a, call.b]).toFinset

def Call.ends (call : Call) : List UInt8 × List UInt8 := (call.a, call.b)

/-- The number of calls whose edge leaves a key. -/
def outDegree (calls : List Call) (a : List UInt8) : Nat := calls.countP fun call => call.a = a

/-- There is a bucket for each key, and each source has at most sixteen edges. -/
def FitsCapacity (maxNodes : UInt64) (calls : List Call) : Prop :=
  (nodeKeys calls).card ≤ maxNodes.toNat ∧ ∀ call ∈ calls, outDegree calls call.a ≤ 16

instance (maxNodes : UInt64) : DecidablePred (FitsCapacity maxNodes) := fun calls =>
  @instDecidableAnd _ _ _ (List.decidableBAll _ calls)

theorem mem_nodeKeys {calls : List Call} {key : List UInt8} :
    key ∈ nodeKeys calls ↔ ∃ call ∈ calls, call.a = key ∨ call.b = key := by
  simp [nodeKeys, @eq_comm _ key]

theorem nodeKeys_append (calls : List Call) (call : Call) :
    nodeKeys (calls ++ [call]) = insert call.a (insert call.b (nodeKeys calls)) := by
  ext key
  simp only [mem_nodeKeys, Finset.mem_insert, List.mem_append, List.mem_singleton]
  constructor
  · rintro ⟨call', hold | rfl, hkey⟩
    · exact .inr (.inr ⟨call', hold, hkey⟩)
    · exact hkey.elim (fun h => .inl h.symm) fun h => .inr (.inl h.symm)
  · rintro (rfl | rfl | ⟨call', hold, hkey⟩)
    · exact ⟨call, .inr rfl, .inl rfl⟩
    · exact ⟨call, .inr rfl, .inr rfl⟩
    · exact ⟨call', .inl hold, hkey⟩

theorem outDegree_append (calls : List Call) (call : Call) (a : List UInt8) :
    outDegree (calls ++ [call]) a = outDegree calls a + if call.a = a then 1 else 0 := by
  simp [outDegree, List.countP_append, List.countP_cons]

theorem FitsCapacity.of_append {maxNodes : UInt64} {calls : List Call} {call : Call}
    (h : FitsCapacity maxNodes (calls ++ [call])) : FitsCapacity maxNodes calls := by
  obtain ⟨hkeys, hdegrees⟩ := h
  constructor
  · apply Nat.le_trans (Finset.card_le_card _) hkeys
    rw [nodeKeys_append]
    exact (Finset.subset_insert _ _).trans (Finset.subset_insert _ _)
  · intro call' hcall'
    have hdegree := hdegrees call' (List.mem_append_left _ hcall')
    rw [outDegree_append] at hdegree
    omega

/-! ## Calls with the same edges in any order -/

section Permutation

variable {calls calls' : List Call}

theorem nodeKeys_perm (h : (calls.map Call.ends).Perm (calls'.map Call.ends)) :
    nodeKeys calls = nodeKeys calls' := by
  have hmem : ∀ (cs : List Call) (key : List UInt8), key ∈ nodeKeys cs ↔
      ∃ ends ∈ cs.map Call.ends, ends.1 = key ∨ ends.2 = key := by
    intro cs key
    simp only [mem_nodeKeys, List.mem_map, exists_exists_and_eq_and]
    rfl
  ext key
  rw [hmem, hmem]
  simp only [h.mem_iff]

theorem outDegree_perm (h : (calls.map Call.ends).Perm (calls'.map Call.ends))
    (a : List UInt8) : outDegree calls a = outDegree calls' a := by
  have hcount : ∀ cs : List Call,
      outDegree cs a = (cs.map Call.ends).countP fun ends => ends.1 = a := by
    intro cs
    rw [List.countP_map]
    rfl
  rw [hcount, hcount, h.countP_eq]

theorem asked_perm (h : (calls.map Call.ends).Perm (calls'.map Call.ends))
    (a b : List UInt8) : asked calls a b = asked calls' a b := by
  have hcount : ∀ cs : List Call,
      asked cs a b = (cs.map Call.ends).countP fun ends => ends.1 = a ∧ ends.2 = b := by
    intro cs
    rw [List.countP_map]
    rfl
  rw [hcount, hcount, h.countP_eq]

theorem FitsCapacity.perm {maxNodes : UInt64} (hfits : FitsCapacity maxNodes calls)
    (h : (calls.map Call.ends).Perm (calls'.map Call.ends)) : FitsCapacity maxNodes calls' := by
  refine ⟨nodeKeys_perm h ▸ hfits.1, fun call' hcall' => ?_⟩
  obtain ⟨call, hcall, hends⟩ := List.mem_map.mp (h.mem_iff.mpr (List.mem_map_of_mem hcall'))
  have hfirst : call.a = call'.a := congrArg Prod.fst hends
  rw [← outDegree_perm h, ← hfirst]
  exact hfits.2 call hcall

end Permutation

section Invariant

variable {hash : List UInt8 → UInt64 → UInt64} {state : State} {K : List UInt8 → Prop}
  {count : List UInt8 → List UInt8 → Nat}

theorem Inv.length_nodes (h : Inv hash state K count) {keys : Finset (List UInt8)}
    (hkeys : ∀ key, K key ↔ key ∈ keys) :
    (state.graph.nodes.members Map.Bucket.bytes).length = keys.card := by
  rw [← List.toFinset_card_of_nodup h.settled.nodup_members]
  congr 1
  ext key
  rw [List.mem_toFinset, Table.mem_members, ← hkeys, h.bound]

theorem length_members_le {β : Type} (bytes : β → List UInt8) (table : Table β) :
    (table.members bytes).length ≤ table.size.toNat := by
  rw [← table.length_buckets]
  exact List.length_filterMap_le _ _

def destKey (memory : Memory) (k : List UInt8) : Option (List UInt8) :=
  (memory.graphEdges.lookup (readLE k)).bind fun edge =>
    (memory.graphNodes.lookup edge.dest).map GraphNode.data

theorem Inv.perm_destKeys {calls : List Call}
    (h : Inv hash state (fun key => ∃ call ∈ calls, call.a = key ∨ call.b = key) (asked calls))
    {a : List UInt8} {p : Addr} (hp : Binds state a p) {node : GraphNode}
    (hnode : state.memory.graphNodes.lookup p = some node) :
    ((SetT.members node.edges).map (destKey state.memory)).Perm
      ((calls.filter fun call => call.a = a).map fun call => some call.b) := by
  have hedges := h.edges p node hnode
  have hdest : ∀ k ∈ SetT.members node.edges, ∃ q b, Binds state b q ∧
      (state.memory.graphEdges.lookup (readLE k)).map GraphEdge.dest = some q ∧
        destKey state.memory k = some b := by
    intro k hk
    obtain ⟨e, edge, rfl, hedge, hlive⟩ := hedges.live k hk
    obtain ⟨node', hnode'⟩ := Finmap.mem_iff.mp hlive
    refine ⟨edge.dest, node'.data, h.node edge.dest node' hnode', ?_, ?_⟩
    · rw [readLE_wordBytes, hedge, Option.map_some]
    · rw [destKey, readLE_wordBytes, hedge, Option.bind_some, hnode', Option.map_some]
  apply List.perm_iff_count.mpr
  intro key
  rw [List.count_eq_countP, List.count_eq_countP, List.countP_map, List.countP_map]
  by_cases hkey : ∃ b q, key = some b ∧ Binds state b q
  · obtain ⟨b, q, rfl, hq⟩ := hkey
    have hleft : (SetT.members node.edges).countP ((· == some b) ∘ destKey state.memory) =
        edgeCount state.memory p q := by
      rw [edgeCount, hnode]
      apply List.countP_congr
      intro k hk
      obtain ⟨q', b', hq', hlookup, hkey'⟩ := hdest k hk
      simp only [Function.comp_apply, hkey', hlookup, beq_iff_eq, decide_eq_true_eq,
        Option.some.injEq, h.eq_iff_eq hq' hq]
    rw [hleft, h.counted a b p q hp hq, asked, List.countP_filter]
    apply List.countP_congr
    intro call _
    simp [and_comm]
  · rw [not_exists] at hkey
    have hleft : ∀ k ∈ SetT.members node.edges, destKey state.memory k ≠ key := by
      intro k hk heq
      obtain ⟨q, b, hq, _, hb⟩ := hdest k hk
      exact hkey b ⟨q, by rw [← heq, hb], hq⟩
    have hright : ∀ call ∈ calls, some call.b ≠ key := by
      intro call hcall heq
      have hbound : ∃ call' ∈ calls, call'.a = call.b ∨ call'.b = call.b :=
        ⟨call, hcall, .inr rfl⟩
      obtain ⟨q, hq⟩ := h.binds_of_bound hbound
      exact hkey call.b ⟨q, heq.symm, hq⟩
    rw [List.countP_eq_zero.mpr, List.countP_eq_zero.mpr]
    · intro call hcall
      simpa using hright call (List.mem_of_mem_filter hcall)
    · intro k hk
      simpa using hleft k hk

theorem Inv.length_edges {calls : List Call}
    (h : Inv hash state (fun key => ∃ call ∈ calls, call.a = key ∨ call.b = key) (asked calls))
    {a : List UInt8} {p : Addr} (hp : Binds state a p) {node : GraphNode}
    (hnode : state.memory.graphNodes.lookup p = some node) :
    (SetT.members node.edges).length = outDegree calls a := by
  have hlength := (h.perm_destKeys hp hnode).length_eq
  rwa [List.length_map, List.length_map, ← List.countP_eq_length_filter] at hlength

theorem Inv.fitsCapacity {calls : List Call}
    (h : Inv hash state (fun key => ∃ call ∈ calls, call.a = key ∨ call.b = key) (asked calls)) :
    FitsCapacity state.graph.nodes.size calls := by
  constructor
  · have hlength : (state.graph.nodes.members Map.Bucket.bytes).length =
        (nodeKeys calls).card := h.length_nodes fun key => mem_nodeKeys.symm
    rw [← hlength]
    exact length_members_le _ _
  · intro call hcall
    have hbound : ∃ call' ∈ calls, call'.a = call.a ∨ call'.b = call.a := ⟨call, hcall, .inl rfl⟩
    obtain ⟨p, hp⟩ := h.binds_of_bound hbound
    obtain ⟨_, _, node, hnode, _⟩ := h.node_of_binds hp
    have hle := length_members_le Set.Bucket.bytes node.edges
    rw [(h.edges p node hnode).size] at hle
    rw [← h.length_edges hp hnode]
    exact hle

/-! ## The exits -/

theorem size_mapSet {map : MapT} {key value : List UInt8} {stored : MapT × Int}
    (hset : mapSet hash map key value = .ok stored) : stored.1.size = map.size := by
  rcases mapSet_cases hash map key value with
    ⟨_, heq⟩ | ⟨j, _, _, heq⟩ | ⟨j, bucket, _, _, heq⟩
  · cases heq.symm.trans hset
    rfl
  · cases heq.symm.trans hset
    exact Table.size_put map j _
  · obtain ⟨bucket', _, rfl⟩ := Except.map_eq_ok (heq.symm.trans hset)
    exact Table.size_put map j _

theorem size_graphAddNode {key : List UInt8} {answer p : Addr} {state' : State}
    (hadd : graphAddNode hash state key answer = .ok (state', p)) :
    state'.graph.nodes.size = state.graph.nodes.size := by
  obtain ⟨found, _, hfound⟩ := Except.bind_eq_ok hadd
  cases hcase : found.1 with
  | none =>
      rw [hcase] at hfound
      obtain ⟨created, _, hstore⟩ := Except.bind_eq_ok hfound
      obtain ⟨stored, hset, hstored⟩ := Except.bind_eq_ok hstore
      split at hstored
      · cases hstored
      · cases hstored
        exact size_mapSet hset
  | some addr =>
      rw [hcase] at hfound
      obtain ⟨node, _, hnode⟩ := Except.bind_eq_ok hfound
      cases hnode
      rfl

theorem size_graphAddEdge {call : Call} {state' : State}
    (hadd : graphAddEdge hash state call = .ok state') :
    state'.graph.nodes.size = state.graph.nodes.size := by
  obtain ⟨dst, hdst, hrest⟩ := Except.bind_eq_ok hadd
  obtain ⟨edge, _, hrest⟩ := Except.bind_eq_ok hrest
  obtain ⟨src, hsrc, hrest⟩ := Except.bind_eq_ok hrest
  obtain ⟨memory, _, hrest⟩ := Except.bind_eq_ok hrest
  cases hrest
  have hfirst : dst.1.graph.nodes.size = state.graph.nodes.size := size_graphAddNode hdst
  exact (size_graphAddNode hsrc).trans hfirst

theorem Inv.full_of_exit (h : Inv hash state K count) {keys : Finset (List UInt8)}
    (hkeys : ∀ key, K key ↔ key ∈ keys) (hsize : state.graph.nodes.size.toNat ∣ 2 ^ 64)
    {key : List UInt8} {answer : Addr} (hexit : graphAddNode hash state key answer =
      .error (.exit "graph_add_node" "Could not insert key-value pair into map")) :
    state.graph.nodes.size.toNat < (insert key keys).card := by
  have hkey : ¬K key := by
    intro hkey
    obtain ⟨p, hp⟩ := h.binds_of_bound hkey
    rw [h.graphAddNode_of_binds hp answer] at hexit
    cases hexit
  have hstop : stop hash state.graph.nodes key = none := by
    rcases mapSet_cases hash state.graph.nodes key (wordBytes answer) with
      ⟨hstop, _⟩ | ⟨j, _, _, hset⟩ | ⟨j, bucket, hstop, hbucket, _⟩
    · exact hstop
    · simp only [graphAddNode, h.mapGet_of_not_bound hkey 0, bind, Except.bind] at hexit
      unfold graphNodeCreate at hexit
      by_cases hzero : answer = 0
      · rw [if_pos hzero] at hexit
        simp at hexit
      · simp [hzero, hset, pure, Except.pure] at hexit
    · exact absurd ((h.holds_iff_bound key).mp (Map.holds_iff.mpr ⟨j, bucket, hstop, hbucket⟩)) hkey
  rw [Finset.card_insert_of_notMem ((hkeys key).not.mp hkey), ← h.length_nodes hkeys,
    Table.length_members_of_stop hsize hstop]
  exact Nat.lt_succ_self _

theorem Inv.overfull_of_exit (h : Inv hash state K count) {keys : Finset (List UInt8)}
    (hkeys : ∀ key, K key ↔ key ∈ keys) (hsize : state.graph.nodes.size.toNat ∣ 2 ^ 64)
    {call : Call} (hlegal : Legal hash state call) (hexit : graphAddEdge hash state call =
      .error (.exit "graph_add_node" "Could not insert key-value pair into map")) :
    state.graph.nodes.size.toNat < (insert call.a (insert call.b keys)).card := by
  obtain ⟨hdst, ⟨hzero, hedge⟩, _⟩ := h.legal_iff hlegal
  rcases h.graphAddNode_cases hdst with hfull | ⟨state₁, q, hadd₁, hb, hinv₁, hsame₁⟩
  · apply Nat.lt_of_lt_of_le (h.full_of_exit hkeys hsize hfull)
    exact Finset.card_le_card (Finset.subset_insert _ _)
  · have hedge₁ : call.edge ∉ state₁.memory.graphEdges := by rwa [hb.graphEdges]
    have hinv₂ := hinv₁.withEdge hedge₁ q
    have hunused₂ : Unused (Graph.withEdge state₁ call.edge q) call.edge := hinv₁.unused hedge₁
    have hanswer : ¬(K call.a ∨ call.a = call.b) →
        call.src ≠ 0 ∧ call.src ∉ state₁.memory.graphNodes := h.src_fresh hlegal hb hsame₁
    have hkeys₂ : ∀ key, (K key ∨ key = call.b) ↔ key ∈ insert call.b keys := by
      intro key
      rw [Finset.mem_insert, ← hkeys, or_comm]
    have hsize₁ := size_graphAddNode hadd₁
    have hsize₂ : (Graph.withEdge state₁ call.edge q).graph.nodes.size =
        state.graph.nodes.size := hsize₁
    rw [graphAddEdge, hadd₁] at hexit
    simp only [bind, Except.bind, graphEdgeCreate_eq hzero] at hexit
    rcases hinv₂.graphAddNode_cases hanswer with
      hfull | ⟨state₃, p, hadd₃, ha, hinv₃, _⟩
    · have hlt := hinv₂.full_of_exit hkeys₂ (by rwa [hsize₂]) hfull
      rwa [hsize₂] at hlt
    · have hadd₃' : graphAddNode hash ⟨state₁.graph, (Graph.withEdge state₁ call.edge q).memory⟩
          call.a call.src = _ := hadd₃
      rw [hadd₃'] at hexit
      obtain ⟨node, _, hcases⟩ :=
        hinv₃.graphNodeAddEdge_cases ha.binds (ha.unused call.edge hunused₂)
      rcases hcases with ⟨hfull, _⟩ | ⟨edges, hadd, _⟩
      · simp [hfull] at hexit
      · simp [hadd, pure, Except.pure] at hexit

theorem Inv.returns_iff {calls : List Call}
    (h : Inv hash state (fun key => ∃ call ∈ calls, call.a = key ∨ call.b = key) (asked calls))
    (hsize : state.graph.nodes.size.toNat ∣ 2 ^ 64) {call : Call}
    (hlegal : Legal hash state call)
    (hnext : ∀ state', graphAddEdge hash state call = .ok state' → Inv hash state'
      (fun key => ∃ call' ∈ calls ++ [call], call'.a = key ∨ call'.b = key)
        (asked (calls ++ [call]))) :
    (∃ state', graphAddEdge hash state call = .ok state') ↔
      FitsCapacity state.graph.nodes.size (calls ++ [call]) := by
  constructor
  · rintro ⟨state', hadd⟩
    rw [← size_graphAddEdge hadd]
    exact (hnext state' hadd).fitsCapacity
  · intro hfits
    rcases h.graphAddEdge_cases hlegal with
      hexit | ⟨hexit, p, node, hp, hnode, hfull⟩ | ⟨state', hadd, _⟩
    · have hlt := h.overfull_of_exit (fun key => mem_nodeKeys.symm) hsize hlegal hexit
      rw [← nodeKeys_append] at hlt
      exact absurd hfits.1 (by omega)
    · -- the sixteen edges of the node are those of earlier calls
      have hdegree := hfits.2 call (List.mem_append_right _ (List.mem_singleton_self call))
      rw [outDegree_append, if_pos rfl, ← h.length_edges hp hnode] at hdegree
      omega
    · exact ⟨state', hadd⟩

end Invariant

section Runs

variable (hash : List UInt8 → UInt64 → UInt64) {maxNodes : UInt64} {calls : List Call}

theorem size_run {state : State}
    (hrun : calls.foldlM (graphAddEdge hash) (graphCreate maxNodes) = .ok state) :
    state.graph.nodes.size = maxNodes := by
  have hstep : ∀ (state : State) (call : Call) (state' : State),
      state.graph.nodes.size = maxNodes → graphAddEdge hash state call = .ok state' →
        state'.graph.nodes.size = maxNodes := fun _ _ _ h hadd => (size_graphAddEdge hadd).trans h
  exact invariant_foldlM hstep rfl hrun

/-- For a number of buckets that divides `2 ^ 64`, calls build a graph without
an exit if and only if they fit. -/
theorem calls_return_iff (hsize : maxNodes.toNat ∣ 2 ^ 64)
    (hlegal : AlongM (graphAddEdge hash) (Legal hash) (graphCreate maxNodes) calls) :
    (∃ state, calls.foldlM (graphAddEdge hash) (graphCreate maxNodes) = .ok state) ↔
      FitsCapacity maxNodes calls := by
  induction calls using List.reverseRecOn with
  | nil => exact iff_of_true ⟨_, rfl⟩ ⟨Nat.zero_le _, fun call hcall => by cases hcall⟩
  | append_singleton calls call ih =>
      obtain ⟨hbefore, hcall⟩ := alongM_append.mp hlegal
      have hcalls := ih hbefore
      constructor
      · rintro ⟨state, hrun⟩
        rw [← size_run hash hrun]
        exact (inv_run hlegal hrun).fitsCapacity
      · intro hfits
        obtain ⟨state, hrun⟩ := hcalls.mpr hfits.of_append
        have hstate := size_run hash hrun
        have hlast := ((alongM_cons state call []).mp (hcall state hrun)).1
        have hextend : ∀ state', graphAddEdge hash state call = .ok state' →
            (calls ++ [call]).foldlM (graphAddEdge hash) (graphCreate maxNodes) =
              .ok state' := by
          intro state' hadd
          exact foldlM_append_ok.mpr ⟨state, hrun, foldlM_cons_ok.mpr ⟨state', hadd, rfl⟩⟩
        have hreturns := (inv_run hbefore hrun).returns_iff (hstate ▸ hsize) hlast
          fun state' hadd => inv_run hlegal (hextend state' hadd)
        rw [hstate] at hreturns
        obtain ⟨state', hadd⟩ := hreturns.mpr hfits
        exact ⟨state', hextend state' hadd⟩

variable (hash' : List UInt8 → UInt64 → UInt64)

/-- Two graphs have nodes for the same keys, and as many edges between any two
of them. -/
structure Alike (state state' : State) : Prop where
  nodes : ∀ key, (∃ p, nodeOf hash state key = some p) ↔ ∃ p, nodeOf hash' state' key = some p
  edges : ∀ a b p q p' q', nodeOf hash state a = some p → nodeOf hash state b = some q →
    nodeOf hash' state' a = some p' → nodeOf hash' state' b = some q' →
      edgeCount state.memory p q = edgeCount state'.memory p' q'

theorem Inv.bound_iff {hash : List UInt8 → UInt64 → UInt64} {state : State}
    {K : List UInt8 → Prop} {count : List UInt8 → List UInt8 → Nat}
    (h : Inv hash state K count) (key : List UInt8) :
    (∃ p, nodeOf hash state key = some p) ↔ K key := by
  constructor
  · rintro ⟨p, hp⟩
    exact (h.node_of_binds ((h.nodeOf_iff key p).mp hp)).1
  · intro hkey
    obtain ⟨p, hp⟩ := h.binds_of_bound hkey
    exact ⟨p, (h.nodeOf_iff key p).mpr hp⟩

/-- In two graphs of as many buckets, a number that divides `2 ^ 64`: neither the
order of the calls, nor the hash, nor the addresses that `calloc` returns have a
part in whether the calls return, or in the graph that they build. -/
theorem build_order_independent {calls' : List Call} (hsize : maxNodes.toNat ∣ 2 ^ 64)
    (hends : (calls.map Call.ends).Perm (calls'.map Call.ends))
    (hlegal : AlongM (graphAddEdge hash) (Legal hash) (graphCreate maxNodes) calls)
    (hlegal' : AlongM (graphAddEdge hash') (Legal hash') (graphCreate maxNodes) calls') :
    ((∃ state, calls.foldlM (graphAddEdge hash) (graphCreate maxNodes) = .ok state) ↔
      ∃ state', calls'.foldlM (graphAddEdge hash') (graphCreate maxNodes) = .ok state') ∧
    ∀ state state', calls.foldlM (graphAddEdge hash) (graphCreate maxNodes) = .ok state →
      calls'.foldlM (graphAddEdge hash') (graphCreate maxNodes) = .ok state' →
        Alike hash hash' state state' := by
  constructor
  · rw [calls_return_iff hash hsize hlegal, calls_return_iff hash' hsize hlegal']
    exact ⟨fun h => h.perm hends, fun h => h.perm hends.symm⟩
  · intro state state' hrun hrun'
    have hinv := inv_run hlegal hrun
    have hinv' := inv_run hlegal' hrun'
    constructor
    · intro key
      rw [hinv.bound_iff, hinv'.bound_iff, ← mem_nodeKeys, ← mem_nodeKeys, nodeKeys_perm hends]
    · intro a b p q p' q' hp hq hp' hq'
      rw [hinv.represents.edges a b p q hp hq, hinv'.represents.edges a b p' q' hp' hq',
        asked_perm hends]

end Runs

theorem calls_return_iff_loop :
    (∃ state, loopCalls.foldlM (graphAddEdge xxh3) (graphCreate 4) = .ok state) ↔
      FitsCapacity 4 loopCalls :=
  calls_return_iff xxh3 (by decide) (by decide +kernel)

/-- The same edges once more, asked for in reverse order, with every key at
bucket 0 and nodes and edges elsewhere. -/
theorem build_order_independent_loop :
    ((∃ state, loopCalls.foldlM (graphAddEdge xxh3) (graphCreate 4) = .ok state) ↔
      ∃ state', [⟨[98], [98], 8, 24, 0⟩, ⟨[97], [98], 0, 72, 40⟩, ⟨[97], [98], 0, 56, 0⟩].foldlM
        (graphAddEdge fun _ _ => 0) (graphCreate 4) = .ok state') ∧
    ∀ state state', loopCalls.foldlM (graphAddEdge xxh3) (graphCreate 4) = .ok state →
      [⟨[98], [98], 8, 24, 0⟩, ⟨[97], [98], 0, 72, 40⟩, ⟨[97], [98], 0, 56, 0⟩].foldlM
          (graphAddEdge fun _ _ => 0) (graphCreate 4) = .ok state' →
        Alike xxh3 (fun _ _ => 0) state state' :=
  build_order_independent xxh3 (fun _ _ => 0) (by decide) (by decide) (by decide +kernel)
    (by decide +kernel)

end Doctrina.Graph
