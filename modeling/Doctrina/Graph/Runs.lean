import Doctrina.Graph.Construction
import Mathlib.Tactic.Tauto
/-!
# Runs of graph_add_edge

A run that does not exit builds the multigraph of its calls, and the only way
for a call not to return is to find the node map or an edge set full.
-/

namespace Doctrina.Graph

open Doctrina.Internal Doctrina.Lib.Execution Doctrina.Map Doctrina.Set

section Runs

variable (hash : List UInt8 → UInt64 → UInt64)

/-- The answers that the call asks `calloc` for. -/
def Call.answers (state : State) (call : Call) : List Addr :=
  (if mapExists hash state.graph.nodes call.b = 1 then [] else [call.dst]) ++ call.edge ::
    (if call.a = call.b ∨ mapExists hash state.graph.nodes call.a = 1 then [] else [call.src])

/-- They are not NULL, and different from every live address and each other. -/
def Legal (state : State) (call : Call) : Prop :=
  (call.answers hash state).Nodup ∧ ∀ x ∈ call.answers hash state,
    x ≠ 0 ∧ x ∉ state.memory.graphNodes ∧ x ∉ state.memory.graphEdges

instance (state : State) : DecidablePred (Legal hash state) := fun call =>
  @instDecidableAnd _ _ (List.nodupDecidable _) (List.decidableBAll _ (call.answers hash state))

def nodeOf (state : State) (key : List UInt8) : Option Addr :=
  match mapGet hash state.graph.nodes key (some 0) with
  | .ok (some addr, _) => (readWord addr).toOption
  | _ => none

/-- The number of calls from one key to another. -/
def asked (calls : List Call) (a b : List UInt8) : Nat :=
  calls.countP fun call => call.a = a ∧ call.b = b

/-- The state is the multigraph of the calls: the keys of the calls are bound,
each to its own node, and no other key is; every node is bound; there are as
many edges between two nodes as calls asked for. -/
structure Represents (state : State) (calls : List Call) : Prop where
  bound : ∀ key, (∃ call ∈ calls, call.a = key ∨ call.b = key) →
    ∃ p node, nodeOf hash state key = some p ∧
      state.memory.graphNodes.lookup p = some node ∧ node.data = key
  unbound : ∀ key, ¬(∃ call ∈ calls, call.a = key ∨ call.b = key) →
    mapExists hash state.graph.nodes key = 0 ∧
      ∀ size, mapGet hash state.graph.nodes key (some size) = .ok (none, 0)
  injective : ∀ key key' p, nodeOf hash state key = some p →
    nodeOf hash state key' = some p → key = key'
  onto : ∀ p ∈ state.memory.graphNodes, ∃ key, nodeOf hash state key = some p
  edges : ∀ a b p q, nodeOf hash state a = some p → nodeOf hash state b = some q →
    edgeCount state.memory p q = asked calls a b

/-- The next call returns, finds the node map full, or finds the sixteen
buckets of its source taken. -/
def ExitsOnlyFull (state : State) : Prop :=
  ∀ call, Legal hash state call →
    (∃ state', graphAddEdge hash state call = .ok state') ∨
    graphAddEdge hash state call =
      .error (.exit "graph_add_node" "Could not insert key-value pair into map") ∨
    (graphAddEdge hash state call =
        .error (.exit "graph_node_add_edge" "Could not add edge to the set") ∧
      ∃ p node, nodeOf hash state call.a = some p ∧
        state.memory.graphNodes.lookup p = some node ∧
          (SetT.members node.edges).length = 16)

variable {hash} {state : State} {K : List UInt8 → Prop}
  {count : List UInt8 → List UInt8 → Nat}

theorem Inv.mapExists_iff (h : Inv hash state K count) (key : List UInt8) :
    mapExists hash state.graph.nodes key = 1 ↔ K key := by
  rw [mapExists_eq_one_iff, h.holds_iff_bound]

theorem Inv.nodeOf_iff (h : Inv hash state K count) (key : List UInt8) (p : Addr) :
    nodeOf hash state key = some p ↔ Binds state key p := by
  by_cases hkey : K key
  · obtain ⟨p', hp'⟩ := h.binds_of_bound hkey
    have hnode : nodeOf hash state key = some p' := by
      simp [nodeOf, h.mapGet_of_binds hp', readWord_wordBytes, Except.toOption]
    rw [hnode, Option.some.injEq]
    constructor
    · intro heq
      rwa [← heq]
    · exact h.binds_unique hp'
  · have hnode : nodeOf hash state key = none := by
      simp [nodeOf, h.mapGet_of_not_bound hkey]
    rw [hnode]
    exact ⟨nofun, fun hp => absurd (h.node_of_binds hp).1 hkey⟩

/-- What a `graphAddNode` that returns has done. -/
structure AddedNode (state : State) (key : List UInt8) (answer : Addr) (state' : State)
    (p : Addr) : Prop where
  binds : Binds state' key p
  kept : ∀ key' p', Binds state key' p' → Binds state' key' p'
  unused : ∀ e, Unused state e → Unused state' e
  graphEdges : state'.memory.graphEdges = state.memory.graphEdges
  lookup : ∀ x node, state'.memory.graphNodes.lookup x = some node →
    state.memory.graphNodes.lookup x = some node ∨
      (x = answer ∧ SetT.members node.edges = [])

theorem AddedNode.lookup_of_edges {key : List UInt8} {answer : Addr} {state' : State} {p : Addr}
    (h : AddedNode state key answer state' p) {x : Addr} {node : GraphNode}
    (hnode : state'.memory.graphNodes.lookup x = some node)
    (hne : SetT.members node.edges ≠ []) : state.memory.graphNodes.lookup x = some node :=
  (h.lookup x node hnode).resolve_right fun hnew => hne hnew.2

theorem Inv.graphAddNode_cases (h : Inv hash state K count) {key : List UInt8} {answer : Addr}
    (hanswer : ¬K key → answer ≠ 0 ∧ answer ∉ state.memory.graphNodes) :
    graphAddNode hash state key answer =
        .error (.exit "graph_add_node" "Could not insert key-value pair into map") ∨
      ∃ state' p, graphAddNode hash state key answer = .ok (state', p) ∧
        AddedNode state key answer state' p ∧
        Inv hash state' (fun k => K k ∨ k = key) count ∧ (K key → state' = state) := by
  by_cases hkey : K key
  · right
    obtain ⟨p, hp⟩ := h.binds_of_bound hkey
    have hK : (fun k => K k ∨ k = key) = K := by
      funext k
      exact propext ⟨fun hk => hk.elim id fun heq => heq ▸ hkey, .inl⟩
    refine ⟨state, p, h.graphAddNode_of_binds hp answer, ?_, by rwa [hK], fun _ => rfl⟩
    exact ⟨hp, fun _ _ hb => hb, fun _ hu => hu, rfl, fun _ _ hnode => .inl hnode⟩
  · obtain ⟨hzero, hfresh⟩ := hanswer hkey
    rcases h.graphAddNode_new hkey hzero with hexit | ⟨j, hstop, hempty, hadd⟩
    · exact .inl hexit
    · right
      refine ⟨_, answer, hadd, ?_, h.withNode hkey hstop hempty hfresh hzero,
        fun hK => absurd hK hkey⟩
      refine ⟨?_, fun key' p' hb => ?_, fun e hu => unused_withNode hu key answer j, rfl,
        fun x node hnode => ?_⟩
      · exact (binds_withNode_iff hstop hempty key answer).mpr (.inr ⟨rfl, rfl⟩)
      · exact (binds_withNode_iff hstop hempty key' p').mpr (.inl hb)
      · rw [lookup_withNode] at hnode
        by_cases hx : x = answer
        · rw [if_pos hx, Option.some.injEq] at hnode
          exact .inr ⟨hx, by simp [← hnode, SetT.members, setNew]⟩
        · rw [if_neg hx] at hnode
          exact .inl hnode

theorem Inv.legal_iff (h : Inv hash state K count) {call : Call}
    (hlegal : Legal hash state call) :
    (¬K call.b → call.dst ≠ 0 ∧ call.dst ∉ state.memory.graphNodes) ∧
      (call.edge ≠ 0 ∧ call.edge ∉ state.memory.graphEdges) ∧
      (¬K call.a → call.a ≠ call.b → call.src ≠ 0 ∧ call.src ∉ state.memory.graphNodes ∧
        (¬K call.b → call.src ≠ call.dst)) := by
  obtain ⟨hnodup, hfresh⟩ := hlegal
  refine ⟨fun hb => ?_, ?_, fun ha hne => ?_⟩
  · have hb' := (h.mapExists_iff call.b).not.mpr hb
    have hdst := hfresh call.dst (by simp [Call.answers, hb'])
    exact ⟨hdst.1, hdst.2.1⟩
  · have hedge := hfresh call.edge (by simp [Call.answers])
    exact ⟨hedge.1, hedge.2.2⟩
  · have ha' := (h.mapExists_iff call.a).not.mpr ha
    have hsrc := hfresh call.src (by simp [Call.answers, ha', hne])
    refine ⟨hsrc.1, hsrc.2.1, fun hb heq => ?_⟩
    have hb' := (h.mapExists_iff call.b).not.mpr hb
    simp [Call.answers, hb', ha', hne, heq] at hnodup

theorem Inv.src_fresh (h : Inv hash state K count) {call : Call}
    (hlegal : Legal hash state call) {state' : State} {q : Addr}
    (hadded : AddedNode state call.b call.dst state' q) (hsame : K call.b → state' = state)
    (hnew : ¬(K call.a ∨ call.a = call.b)) :
    call.src ≠ 0 ∧ call.src ∉ state'.memory.graphNodes := by
  rw [not_or] at hnew
  obtain ⟨hzero, hfresh, hne⟩ := (h.legal_iff hlegal).2.2 hnew.1 hnew.2
  refine ⟨hzero, fun hmem => ?_⟩
  obtain ⟨node, hnode⟩ := Finmap.mem_iff.mp hmem
  by_cases hK : K call.b
  · rw [hsame hK] at hmem
    exact hfresh hmem
  · cases hadded.lookup call.src node hnode with
    | inl hold => exact hfresh (Finmap.mem_of_lookup_eq_some hold)
    | inr hdst => exact hne hK hdst.1

theorem graphEdgeCreate_eq {e : Addr} (he : e ≠ 0) (q : Addr) :
    graphEdgeCreate state.memory q e = .ok ((withEdge state e q).memory, e) := by
  rw [graphEdgeCreate, if_neg he]
  rfl

/-- The three ways a legal call can go. -/
theorem Inv.graphAddEdge_cases (h : Inv hash state K count) {call : Call}
    (hlegal : Legal hash state call) :
    graphAddEdge hash state call =
        .error (.exit "graph_add_node" "Could not insert key-value pair into map") ∨
      (graphAddEdge hash state call =
          .error (.exit "graph_node_add_edge" "Could not add edge to the set") ∧
        ∃ p node, Binds state call.a p ∧ state.memory.graphNodes.lookup p = some node ∧
          (SetT.members node.edges).length = 16) ∨
      ∃ state', graphAddEdge hash state call = .ok state' ∧
        Inv hash state' (fun k => (K k ∨ k = call.b) ∨ k = call.a)
          (fun x y => count x y + if x = call.a ∧ y = call.b then 1 else 0) ∧
        ∀ key p, Binds state key p → Binds state' key p := by
  obtain ⟨hdst, ⟨hzero, hedge⟩, _⟩ := h.legal_iff hlegal
  unfold graphAddEdge
  rcases h.graphAddNode_cases hdst with hexit | ⟨state₁, q, hadd₁, hb, hinv₁, hsame₁⟩
  · left
    rw [hexit]
    rfl
  have hedge₁ : call.edge ∉ state₁.memory.graphEdges := by
    rwa [hb.graphEdges]
  have hinv₂ := hinv₁.withEdge hedge₁ q
  have hunused₂ : Unused (Graph.withEdge state₁ call.edge q) call.edge := hinv₁.unused hedge₁
  have hanswer : ¬(K call.a ∨ call.a = call.b) →
      call.src ≠ 0 ∧ call.src ∉ state₁.memory.graphNodes := h.src_fresh hlegal hb hsame₁
  rw [hadd₁]
  simp only [bind, Except.bind, graphEdgeCreate_eq hzero]
  rcases hinv₂.graphAddNode_cases hanswer with hexit | ⟨state₃, p, hadd₃, ha, hinv₃, _⟩
  · left
    have hexit' : graphAddNode hash ⟨state₁.graph, (Graph.withEdge state₁ call.edge q).memory⟩
        call.a call.src = _ := hexit
    rw [hexit']
  have hadd₃' : graphAddNode hash ⟨state₁.graph, (Graph.withEdge state₁ call.edge q).memory⟩
      call.a call.src = _ := hadd₃
  rw [hadd₃']
  obtain ⟨node, hnode, hcases⟩ :=
    hinv₃.graphNodeAddEdge_cases ha.binds (ha.unused call.edge hunused₂)
  rcases hcases with ⟨hexit, hfull⟩ | ⟨edges, hadd, hinsert, hsize, hperm⟩
  · right
    left
    -- a node with sixteen edges was there before the call
    have hne : SetT.members node.edges ≠ [] := by
      intro hnil
      rw [hnil] at hfull
      cases hfull
    have hnode₀ := hb.lookup_of_edges (ha.lookup_of_edges hnode hne) hne
    obtain ⟨_, _, node', hnode', hdata⟩ := hinv₃.node_of_binds ha.binds
    rw [hnode, Option.some.injEq] at hnode'
    have hbinds := h.node p node hnode₀
    rw [hnode', hdata] at hbinds
    simp only [hexit]
    exact ⟨trivial, p, node, hbinds, hnode₀, hfull⟩
  · right
    right
    have he : state₃.memory.graphEdges.lookup call.edge = some ⟨q⟩ := by
      rw [ha.graphEdges]
      exact Finmap.lookup_insert _
    simp only [hadd]
    refine ⟨_, rfl, hinv₃.withEdges ha.binds (ha.kept _ _ hb.binds) he hnode hinsert hsize
      hperm, fun key r hr => ha.kept _ _ (hb.kept key r hr)⟩

theorem Inv.run (h : Inv hash state K count) {calls : List Call} {state' : State}
    (hlegal : AlongM (graphAddEdge hash) (Legal hash) state calls)
    (hrun : calls.foldlM (graphAddEdge hash) state = .ok state') :
    Inv hash state' (fun k => K k ∨ ∃ call ∈ calls, call.a = k ∨ call.b = k)
        (fun x y => count x y + asked calls x y) ∧
      ∀ key p, Binds state key p → Binds state' key p := by
  induction calls generalizing state K count with
  | nil =>
      cases hrun
      exact ⟨by simpa [asked] using h, fun _ _ hp => hp⟩
  | cons call calls ih =>
      obtain ⟨next, hnext, hrest⟩ := foldlM_cons_ok.mp hrun
      obtain ⟨hcall, htail⟩ := (alongM_cons state call calls).mp hlegal
      rcases h.graphAddEdge_cases hcall with hexit | ⟨hexit, _⟩ | ⟨state₁, hadd, hinv, hkept⟩
      · rw [hexit] at hnext
        cases hnext
      · rw [hexit] at hnext
        cases hnext
      · rw [hadd, Except.ok.injEq] at hnext
        subst hnext
        obtain ⟨hinv', hkept'⟩ := ih hinv (htail _ hadd) hrest
        have hK : (fun k => ((K k ∨ k = call.b) ∨ k = call.a) ∨
              ∃ call ∈ calls, call.a = k ∨ call.b = k) =
            fun k => K k ∨ ∃ call' ∈ call :: calls, call'.a = k ∨ call'.b = k := by
          funext k
          rw [eq_iff_iff, List.exists_mem_cons_iff, @eq_comm _ call.a, @eq_comm _ call.b]
          generalize (∃ call ∈ calls, call.a = k ∨ call.b = k) = later
          tauto
        have hcount : (fun x y => count x y + (if x = call.a ∧ y = call.b then 1 else 0) +
              asked calls x y) = fun x y => count x y + asked (call :: calls) x y := by
          funext x y
          simp only [asked, List.countP_cons, decide_eq_true_eq, @eq_comm _ call.a,
            @eq_comm _ call.b]
          omega
        rw [hK, hcount] at hinv'
        exact ⟨hinv', fun key p hp => hkept' key p (hkept key p hp)⟩

theorem inv_run {maxNodes : UInt64} {calls : List Call}
    (hlegal : AlongM (graphAddEdge hash) (Legal hash) (graphCreate maxNodes) calls)
    (hrun : calls.foldlM (graphAddEdge hash) (graphCreate maxNodes) = .ok state) :
    Inv hash state (fun k => ∃ call ∈ calls, call.a = k ∨ call.b = k) (asked calls) := by
  have hcreate : Inv hash (graphCreate maxNodes) (fun _ => False) fun _ _ => 0 :=
    inv_create maxNodes
  simpa using (hcreate.run hlegal hrun).1

theorem Inv.represents {calls : List Call}
    (h : Inv hash state (fun k => ∃ call ∈ calls, call.a = k ∨ call.b = k) (asked calls)) :
    Represents hash state calls where
  bound key hkey := by
    obtain ⟨p, hp⟩ := h.binds_of_bound hkey
    obtain ⟨_, _, node, hnode, hdata⟩ := h.node_of_binds hp
    exact ⟨p, node, (h.nodeOf_iff key p).mpr hp, hnode, hdata⟩
  unbound key hkey := by
    have hholds := (h.holds_iff_bound key).not.mpr hkey
    exact ⟨mapExists_of_not_holds hholds, mapGet_of_not_holds hholds⟩
  injective key key' p hp hp' :=
    h.key_unique ((h.nodeOf_iff key p).mp hp) ((h.nodeOf_iff key' p).mp hp')
  onto p hp := by
    obtain ⟨node, hnode⟩ := Finmap.mem_iff.mp hp
    exact ⟨node.data, (h.nodeOf_iff node.data p).mpr (h.node p node hnode)⟩
  edges a b p q hp hq :=
    h.counted a b p q ((h.nodeOf_iff a p).mp hp) ((h.nodeOf_iff b q).mp hq)

theorem Inv.exitsOnlyFull (h : Inv hash state K count) : ExitsOnlyFull hash state := by
  intro call hlegal
  rcases h.graphAddEdge_cases hlegal with hexit | ⟨hexit, p, node, hp, hfull⟩ | ⟨state', hadd, _⟩
  · exact .inr (.inl hexit)
  · exact .inr (.inr ⟨hexit, p, node, (h.nodeOf_iff _ p).mpr hp, hfull⟩)
  · exact .inl ⟨state', hadd⟩

variable (hash)

/-- A run of calls that does not exit leaves the multigraph of its calls; no
node a key has been resolved to changes; and a next call that does not return
has found the node map or the edge set of its source full. -/
theorem calls_build_multigraph (maxNodes : UInt64) (calls : List Call) (state : State)
    (hlegal : AlongM (graphAddEdge hash) (Legal hash) (graphCreate maxNodes) calls)
    (hrun : calls.foldlM (graphAddEdge hash) (graphCreate maxNodes) = .ok state) :
    Represents hash state calls ∧
      (∀ before after earlier, calls = before ++ after →
        before.foldlM (graphAddEdge hash) (graphCreate maxNodes) = .ok earlier →
          ∀ key p, nodeOf hash earlier key = some p → nodeOf hash state key = some p) ∧
      ExitsOnlyFull hash state := by
  have hinv := inv_run hlegal hrun
  refine ⟨hinv.represents, ?_, hinv.exitsOnlyFull⟩
  intro before after earlier hsplit hbefore key p hp
  subst hsplit
  obtain ⟨hlegal₁, hlegal₂⟩ := alongM_append.mp hlegal
  obtain ⟨middle, hmiddle, hafter⟩ := foldlM_append_ok.mp hrun
  rw [hbefore, Except.ok.injEq] at hmiddle
  subst hmiddle
  have hearlier := inv_run hlegal₁ hbefore
  have hkept := (hearlier.run (hlegal₂ _ hbefore) hafter).2
  exact (hinv.nodeOf_iff key p).mpr (hkept key p ((hearlier.nodeOf_iff key p).mp hp))

end Runs

/-- Two parallel edges from `a` to `b` and a loop at `b`. -/
def loopCalls : List Call :=
  [⟨[97], [98], 16, 32, 48⟩, ⟨[97], [98], 0, 64, 0⟩, ⟨[98], [98], 0, 80, 0⟩]

theorem calls_build_multigraph_loop :
    ∃ state, loopCalls.foldlM (graphAddEdge xxh3) (graphCreate 4) = .ok state ∧
      Represents xxh3 state loopCalls ∧
      (∀ before after earlier, loopCalls = before ++ after →
        before.foldlM (graphAddEdge xxh3) (graphCreate 4) = .ok earlier →
          ∀ key p, nodeOf xxh3 earlier key = some p → nodeOf xxh3 state key = some p) ∧
      ExitsOnlyFull xxh3 state := by
  have hlegal : AlongM (graphAddEdge xxh3) (Legal xxh3) (graphCreate 4) loopCalls := by
    decide +kernel
  have hok : (loopCalls.foldlM (graphAddEdge xxh3) (graphCreate 4)).isOk = true := by
    decide +kernel
  cases hrun : loopCalls.foldlM (graphAddEdge xxh3) (graphCreate 4) with
  | error e =>
      rw [hrun] at hok
      cases hok
  | ok state => exact ⟨state, rfl, calls_build_multigraph xxh3 4 loopCalls state hlegal hrun⟩

end Doctrina.Graph
