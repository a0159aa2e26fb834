import Doctrina.Graph.Steps
import Doctrina.Stack.Runs
/-!
# Which nodes a traversal queues again

`visited` stays empty, so that nothing but the room in the queue or the stack
keeps the start node from being queued again once its edge list was fetched.
-/

namespace Doctrina.Graph

open Doctrina.Deque Doctrina.Internal Doctrina.Lib.Execution Doctrina.Set Doctrina.Stack

section Rooms

variable {σ : Type} (hash : List UInt8 → UInt64 → UInt64) (work : Traversal σ)
  (memory : Memory)

/-- In every state that the loop passes through from a start node, a node that
was taken and its edge list fetched has not been queued since. -/
def NeverRequeued (p : Addr) : Prop :=
  ∃ start, loopStart work p = .ok start ∧
    ∀ loop, Reaches hash work memory start loop → ∀ before after node,
      loop.events = before ++ .fetched node :: after → .queued node ∉ after

/-- The next `n` nodes can be queued, and the one behind them not. -/
def Room : Nat → σ → Prop
  | 0, pending => ∀ addr : List UInt8, addr.length = 8 →
      ∃ pending', work.put pending addr 8 = .ok (pending', -1)
  | n + 1, pending => ∀ addr : List UInt8, addr.length = 8 →
      ∃ pending', work.put pending addr 8 = .ok (pending', 0) ∧ Room n pending'

/-- A node alone in 32 bytes is taken again, and `n` others can be queued then. -/
def Opens (n : Nat) : Prop :=
  ∀ addr : List UInt8, addr.length = 8 → ∃ pending rest,
    work.put (work.create 32) addr 8 = .ok (pending, 0) ∧
      work.take pending 8 = .ok (rest, some addr) ∧ Room work n rest

/-- The node that a stored edge leads to. -/
def destOf (memory : Memory) (k : List UInt8) : Option Addr :=
  (memory.graphEdges.lookup (readLE k)).map GraphEdge.dest

/-- The loop before its first step, with room for `n` nodes once the start node
is taken. -/
structure Started (p : Addr) (n : Nat) (start : Loop σ) : Prop where
  takes : ∃ rest, work.take start.pending 8 = .ok (rest, some (wordBytes p)) ∧
    Room work n rest
  visited : start.visited = setNew 32
  phase : start.phase = .taking
  events : start.events = [.queued p]

/-- The loop over the edges of the start node before its round `i`, with room
for as many more nodes as `n` exceeds `i`. -/
structure Expanding (p : Addr) (members : List (List UInt8)) (n i : Nat) (loop : Loop σ) :
    Prop where
  nonempty : members ≠ []
  le : i ≤ members.length
  room : ∃ r, r + i = n ∧ Room work r loop.pending
  visited : loop.visited = setNew 32
  phase : loop.phase = .edges members.flatten members.flatten.length i
  events : ∃ dests : List Addr, dests.map some = (members.take i).map (destOf memory) ∧
    loop.events = .queued p :: .fetched p :: dests.map .queued

end Rooms

section Expansion

variable {σ : Type} {hash : List UInt8 → UInt64 → UInt64} {work : Traversal σ}
  {memory : Memory} {p : Addr} {node : GraphNode} {n i : Nat} {loop : Loop σ}

theorem Opens.started (h : Opens work n) (p : Addr) :
    ∃ start, loopStart work p = .ok start ∧ Started work p n start := by
  obtain ⟨pending, rest, hput, htake, hroom⟩ := h (wordBytes p) (length_wordBytes p)
  refine ⟨⟨pending, setNew 32, .taking, [.queued p]⟩, ?_, ⟨rest, htake, hroom⟩, rfl, rfl, rfl⟩
  simp only [loopStart, hput, bind, Except.bind]
  rfl

theorem Started.step {start : Loop σ} (hstart : Started work p n start)
    (h : EdgeSet hash memory node.edges) (hp : p ≠ 0)
    (hnode : memory.graphNodes.lookup p = some node) :
    (SetT.members node.edges = [] ∧ ∃ e, loopStep hash work memory start = .error e) ∨
      ∃ loop, loopStep hash work memory start = .ok (some loop) ∧
        Expanding work memory p (SetT.members node.edges) n 0 loop := by
  obtain ⟨rest, htake, hroom⟩ := hstart.takes
  have hexists : ¬setExists hash start.visited (wordBytes p) = 1 := by
    rw [hstart.visited, setExists_new]
    decide
  have hload : memory.graphNodes.load (pointer p) = .ok node := by
    rw [pointer, if_neg hp, Store.load_eq hnode]
  have hloop : loopStep hash work memory start = takeStep hash work memory start := by
    rw [loopStep, hstart.phase]
  have hall := h.insertOnly.setGetall_eq 0
  by_cases hempty : SetT.members node.edges = []
  · left
    rw [concat, if_pos hempty] at hall
    refine ⟨hempty, .exit work.function "Could not get an edge list from node", ?_⟩
    rw [hloop, takeStep]
    simp only [htake, bind, Except.bind, readWord_wordBytes, if_neg hp, if_neg hexists, hload,
      hall]
  · right
    rw [concat, if_neg hempty] at hall
    have hstep := takeStep_fetches htake (readWord_wordBytes p) hp hexists hload hall
    refine ⟨_, hloop.trans hstep, hempty, Nat.zero_le _, ⟨n, rfl, hroom⟩, hstart.visited, rfl, [],
      rfl, ?_⟩
    rw [hstart.events]
    rfl

theorem EdgeSet.edgeDest_eq (h : EdgeSet hash memory node.edges)
    (hnull : 0 ∉ memory.graphEdges) (hi : i < (SetT.members node.edges).length) :
    ∃ dest, destOf memory (SetT.members node.edges)[i] = some dest ∧
      edgeDest hash memory (setNew 32) (SetT.members node.edges).flatten i = .ok (some dest) := by
  obtain ⟨e, edge, hk, hedge, _⟩ := h.live _ (List.getElem_mem hi)
  have hread : readLE (SetT.members node.edges)[i] = e := by
    rw [hk, readLE_wordBytes]
  refine ⟨edge.dest, ?_, ?_⟩
  · rw [destOf, hread, hedge, Option.map_some]
  · have hexists : ¬setExists hash (setNew 32) (wordBytes edge.dest) = 1 := by
      rw [setExists_new]
      decide
    have he : e ≠ 0 := fun heq => hnull (heq ▸ Finmap.mem_of_lookup_eq_some hedge)
    have hload : memory.graphEdges.load (pointer e) = .ok edge := by
      rw [pointer, if_neg he, Store.load_eq hedge]
    simp only [edgeDest, h.bytesAt_eq hi, hread, bind, Except.bind, if_neg he, hload,
      if_neg hexists]
    rfl

theorem Expanding.step (h : EdgeSet hash memory node.edges) (hnull : 0 ∉ memory.graphEdges)
    (hloop : Expanding work memory p (SetT.members node.edges) n i loop)
    (hi : i < (SetT.members node.edges).length) :
    (i = n ∧ ∃ e, loopStep hash work memory loop = .error e) ∨
    (i < n ∧ ∃ loop', loopStep hash work memory loop = .ok (some loop') ∧
      Expanding work memory p (SetT.members node.edges) n (i + 1) loop') := by
  obtain ⟨dest, hdest, hedge⟩ := h.edgeDest_eq hnull hi
  obtain ⟨dests, hdests, hevents⟩ := hloop.events
  obtain ⟨r, hr, hroom⟩ := hloop.room
  have hround : i < (SetT.members node.edges).flatten.length := by
    rw [h.length_flatten]
    omega
  rw [loopStep, hloop.phase]
  simp only [if_pos hround]
  cases r with
  | zero =>
      left
      obtain ⟨pending', hput⟩ := hroom (wordBytes dest) (length_wordBytes dest)
      refine ⟨by omega, .exit work.function work.destRefused, ?_⟩
      simp only [edgeStep, hloop.visited, hedge, bind, Except.bind, hput]
      rfl
  | succ r =>
      right
      obtain ⟨pending', hput, hrest⟩ := hroom (wordBytes dest) (length_wordBytes dest)
      let members := SetT.members node.edges
      let loop' : Loop σ :=
        ⟨pending', setNew 32, .edges members.flatten members.flatten.length (i + 1),
          loop.events ++ [.queued dest]⟩
      have hstep : (edgeStep hash work memory loop members.flatten members.flatten.length i) =
          .ok loop' := by
        simp only [edgeStep, hloop.visited, hedge, bind, Except.bind, hput, members]
        rfl
      refine ⟨by omega, loop', by rw [hstep]; rfl, hloop.nonempty, hi, ⟨r, by omega, hrest⟩,
        rfl, rfl, dests ++ [dest], ?_, ?_⟩
      · rw [List.map_append, hdests, List.take_succ_eq_append_getElem hi, List.map_append,
          List.map_singleton, List.map_singleton, hdest]
      · simp [loop', hevents]

theorem Expanding.step_end (h : EdgeSet hash memory node.edges)
    (hloop : Expanding work memory p (SetT.members node.edges) n
      (SetT.members node.edges).length loop) :
    loopStep hash work memory loop = .error .outOfBounds := by
  have hpos : 0 < (SetT.members node.edges).length := List.length_pos_iff.mpr hloop.nonempty
  have hround : (SetT.members node.edges).length <
      (SetT.members node.edges).flatten.length := by
    rw [h.length_flatten]
    omega
  rw [loopStep, hloop.phase]
  simp only [if_pos hround, edgeStep, edgeDest, h.bytesAt_end, bind, Except.bind]
  rfl

/-! ### The states that the loop passes through -/

variable {start : Loop σ}

theorem Started.expanding_of_reaches (hstart : Started work p n start)
    (h : EdgeSet hash memory node.edges) (hnull : 0 ∉ memory.graphEdges) (hp : p ≠ 0)
    (hnode : memory.graphNodes.lookup p = some node)
    (hreach : Reaches hash work memory start loop) :
    loop = start ∨ ∃ i, Expanding work memory p (SetT.members node.edges) n i loop := by
  induction hreach with
  | refl => exact .inl rfl
  | tail _ hstep ih =>
      right
      rcases ih with rfl | ⟨i, hloop⟩
      · rcases hstart.step h hp hnode with ⟨_, e, herror⟩ | ⟨next, hnext, hexpanding⟩
        · rw [herror] at hstep
          cases hstep
        · rw [hnext, Except.ok.injEq, Option.some.injEq] at hstep
          exact ⟨0, hstep ▸ hexpanding⟩
      · by_cases hi : i < (SetT.members node.edges).length
        · rcases hloop.step h hnull hi with ⟨_, e, herror⟩ | ⟨_, next, hnext, hexpanding⟩
          · rw [herror] at hstep
            cases hstep
          · rw [hnext, Except.ok.injEq, Option.some.injEq] at hstep
            exact ⟨i + 1, hstep ▸ hexpanding⟩
        · have hend : i = (SetT.members node.edges).length := by
            have hle := hloop.le
            omega
          subst hend
          rw [hloop.step_end h] at hstep
          cases hstep

theorem Started.reaches_expanding (hstart : Started work p n start)
    (h : EdgeSet hash memory node.edges) (hnull : 0 ∉ memory.graphEdges) (hp : p ≠ 0)
    (hnode : memory.graphNodes.lookup p = some node) (hne : SetT.members node.edges ≠ [])
    (hn : i ≤ n) (hi : i ≤ (SetT.members node.edges).length) :
    ∃ loop, Reaches hash work memory start loop ∧
      Expanding work memory p (SetT.members node.edges) n i loop := by
  induction i with
  | zero =>
      rcases hstart.step h hp hnode with ⟨hempty, _⟩ | ⟨loop, hnext, hexpanding⟩
      · exact absurd hempty hne
      · exact ⟨loop, .single hnext, hexpanding⟩
  | succ i ih =>
      obtain ⟨loop, hreach, hloop⟩ := ih (by omega) (by omega)
      rcases hloop.step h hnull hi with ⟨hfull, _⟩ | ⟨_, next, hnext, hexpanding⟩
      · omega
      · exact ⟨next, hreach.tail hnext, hexpanding⟩

theorem Expanding.mem_after (hloop : Expanding work memory p (SetT.members node.edges) n i loop)
    {before after : List Event} {q : Addr}
    (hsplit : loop.events = before ++ .fetched q :: after) (hq : .queued q ∈ after) :
    ∃ k ∈ (SetT.members node.edges).take n, destOf memory k = some p := by
  obtain ⟨dests, hdests, hevents⟩ := hloop.events
  obtain ⟨r, hr, _⟩ := hloop.room
  have hfetched : before = [.queued p] ∧ q = p ∧ after = dests.map .queued := by
    rw [hevents] at hsplit
    cases before with
    | nil => simp at hsplit
    | cons first before =>
        cases before with
        | nil =>
            simp only [List.cons_append, List.nil_append, List.cons.injEq,
              Event.fetched.injEq] at hsplit
            exact ⟨by rw [← hsplit.1], hsplit.2.1.symm, hsplit.2.2.symm⟩
        | cons second before =>
            simp only [List.cons_append, List.cons.injEq] at hsplit
            have hmem : .fetched q ∈ dests.map Event.queued := by
              rw [hsplit.2.2]
              simp
            simp at hmem
  obtain ⟨_, rfl, rfl⟩ := hfetched
  have hmem : q ∈ dests := by simpa using hq
  have hdest : some q ∈ ((SetT.members node.edges).take i).map (destOf memory) := by
    rw [← hdests]
    exact List.mem_map_of_mem hmem
  obtain ⟨k, hk, hkq⟩ := List.mem_map.mp hdest
  exact ⟨k, List.take_subset_take_left _ (by omega) hk, hkq⟩

/-- With room for `n` nodes beside the start node, exactly the first `n` of its
edges decide. -/
theorem Opens.neverRequeued_iff (hopens : Opens work n) (h : EdgeSet hash memory node.edges)
    (hnull : 0 ∉ memory.graphEdges) (hp : p ≠ 0)
    (hnode : memory.graphNodes.lookup p = some node) :
    NeverRequeued hash work memory p ↔
      ∀ k ∈ (SetT.members node.edges).take n, destOf memory k ≠ some p := by
  obtain ⟨start, hok, hstart⟩ := hopens.started p
  constructor
  · rintro ⟨start', hok', hnever⟩ k hk hdest
    rw [hok, Except.ok.injEq] at hok'
    subst hok'
    obtain ⟨j, hj, hkj⟩ := List.mem_take_iff_getElem.mp hk
    have hne : SetT.members node.edges ≠ [] := by
      intro hempty
      simp [hempty] at hj
    obtain ⟨loop, hreach, hloop⟩ := hstart.reaches_expanding h hnull hp hnode hne
      (i := min n (SetT.members node.edges).length) (by omega) (by omega)
    obtain ⟨dests, hdests, hevents⟩ := hloop.events
    refine hnever loop hreach [.queued p] (dests.map .queued) p hevents ?_
    have hmem : some p ∈ dests.map some := by
      rw [hdests, ← hdest]
      refine List.mem_map_of_mem ?_
      rw [List.take_eq_take_min] at hk
      exact hk
    simpa using hmem
  · intro hnone
    refine ⟨start, hok, fun loop hreach before after q hsplit hq => ?_⟩
    rcases hstart.expanding_of_reaches h hnull hp hnode hreach with rfl | ⟨i, hloop⟩
    · rw [hstart.events] at hsplit
      cases before with
      | nil => simp at hsplit
      | cons first before => simp at hsplit
    · obtain ⟨k, hk, hdest⟩ := hloop.mem_after hsplit hq
      exact hnone k hk hdest

end Expansion

/-! ### The room in the queue and in the stack -/

theorem enqueue_eight (wh wt rh rt : UInt64) (hroom : ¬8 > wt - wh) (hrewind : ¬8 > wh % 32)
    (hfull : ¬wh + 8 = wt) (data : Nat → UInt8) (addr : List UInt8) :
    ∃ data', ringBufferEnqueue ⟨32, ⟨wh, wt⟩, ⟨rh, rt⟩, data⟩ addr 8 =
      (⟨32, ⟨wh + 8, wt⟩, ⟨rh, rt + 8⟩, data'⟩, 0) := by
  refine ⟨Lib.Ring.writeAt data (wh &&& (32 - 1)).toNat (addr.take 8), ?_⟩
  simp only [ringBufferEnqueue, ringBufferWriterCapacity, ringBufferRewind, if_neg hroom,
    if_neg hrewind, ringBufferAccept, ringBufferIncrement, ringBufferTryResize, if_neg hfull,
    ringBufferMask]
  rfl

/-- The queue refuses when its 32 bytes are in use. -/
theorem room_bfsQueue (data : Nat → UInt8) :
    Room bfsQueue 4 ⟨32, ⟨8, 32⟩, ⟨8, 8⟩, data⟩ := by
  have hrefused : ∀ data, Room bfsQueue 0 ⟨32, ⟨8, 8⟩, ⟨8, 40⟩, data⟩ := by
    intro data addr _
    refine ⟨⟨32, ⟨8, 8⟩, ⟨8, 40⟩, data⟩, ?_⟩
    simp [bfsQueue, ringBufferEnqueue, ringBufferWriterCapacity]
  -- the fourth goes where the start node was
  have hwrap : ∀ data, Room bfsQueue 1 ⟨32, ⟨32, 8⟩, ⟨8, 32⟩, data⟩ := by
    intro data addr _
    refine ⟨⟨32, ⟨8, 8⟩, ⟨8, 40⟩, Lib.Ring.writeAt data 0 (addr.take 8)⟩, ?_, hrefused _⟩
    simp [bfsQueue, ringBufferEnqueue, ringBufferWriterCapacity, ringBufferRewind,
      ringBufferAccept, ringBufferIncrement, ringBufferTryResize, ringBufferMask]
  have hlast : ∀ data, Room bfsQueue 2 ⟨32, ⟨24, 32⟩, ⟨8, 24⟩, data⟩ := by
    intro data addr _
    refine ⟨⟨32, ⟨32, 8⟩, ⟨8, 32⟩, Lib.Ring.writeAt data 24 (addr.take 8)⟩, ?_, hwrap _⟩
    simp [bfsQueue, ringBufferEnqueue, ringBufferWriterCapacity, ringBufferRewind,
      ringBufferAccept, ringBufferIncrement, ringBufferTryResize, ringBufferMask]
  have hsecond : ∀ data, Room bfsQueue 3 ⟨32, ⟨16, 32⟩, ⟨8, 16⟩, data⟩ := by
    intro data addr _
    obtain ⟨data', hput⟩ := enqueue_eight 16 32 8 16 (by decide) (by decide)
      (by decide) data addr
    exact ⟨_, congrArg Except.ok hput, hlast data'⟩
  intro addr _
  obtain ⟨data', hput⟩ := enqueue_eight 8 32 8 8 (by decide) (by decide)
    (by decide) data addr
  exact ⟨_, congrArg Except.ok hput, hsecond data'⟩

theorem opens_bfsQueue : Opens bfsQueue 4 := by
  intro addr haddr
  let data := Lib.Ring.writeAt (fun _ => (0 : UInt8)) 0 addr
  have hread : Lib.Ring.readAt data 0 8 = addr := by
    rw [← haddr]
    exact Lib.Ring.readAt_writeAt_same (fun _ => (0 : UInt8)) 0 addr
  refine ⟨⟨32, ⟨8, 32⟩, ⟨0, 8⟩, data⟩, ⟨32, ⟨8, 32⟩, ⟨8, 8⟩, data⟩, ?_, ?_, room_bfsQueue _⟩
  · have htake : addr.take 8 = addr := List.take_of_length_le (by omega)
    simp [bfsQueue, ringBufferCreate, ringBufferEnqueue, ringBufferWriterCapacity,
      ringBufferRewind, ringBufferAccept, ringBufferIncrement, ringBufferTryResize,
      ringBufferMask, htake, data]
  · simp [bfsQueue, ringBufferDequeue, ringBufferReaderCapacity, ringBufferMask,
      ringBufferDecrement, ringBufferTryReset, hread]

/-- The stack refuses the push that would fill its 32 bytes. -/
theorem room_dfsStack {r : Nat} {stack : StackT} {string : List UInt8} (hcap : stack.cap = 32)
    (h : stack.Holds string) (hlength : string.length + 8 * r = 24) :
    Room dfsStack r stack := by
  have htop := h.top_eq
  have hcap' : stack.cap.toNat = 32 := by
    rw [hcap]
    rfl
  induction r generalizing stack string with
  | zero =>
      intro addr haddr
      have hput := @StackT.Holds.push_of_not_lt _ _ h addr (by omega) (by omega)
      rw [haddr] at hput
      exact ⟨stack, hput⟩
  | succ r ih =>
      intro addr haddr
      obtain ⟨stack', hput, hnext, hholds⟩ :=
        @StackT.Holds.push_of_lt _ _ h addr (by omega) (by omega)
      rw [haddr] at hput
      refine ⟨stack', hput, ih (hnext.trans hcap) hholds ?_ hholds.top_eq (hnext ▸ hcap')⟩
      rw [List.length_append]
      omega

theorem opens_dfsStack : Opens dfsStack 3 := by
  intro addr haddr
  obtain ⟨pending, hput, hcap, hholds⟩ :=
    @StackT.Holds.push_of_lt _ _ (holds_create 32) addr (by rw [haddr]; decide)
      (by rw [haddr]; decide)
  rw [haddr] at hput
  obtain ⟨rest, htake, hcap', hrest⟩ :=
    @StackT.Holds.pop_of_not_lt _ _ hholds 8 (by simp [haddr])
  refine ⟨pending, rest, hput, ?_, room_dfsStack (hcap'.trans hcap) hrest ?_⟩
  · have hall : ([] ++ addr).drop (([] ++ addr).length - (8 : UInt64).toNat) = addr := by
      simp [haddr]
    rwa [hall] at htake
  · simp [haddr]

/-! ### No edge is at the address 0 -/

section Edges

variable {hash : List UInt8 → UInt64 → UInt64} {state state' : State}

theorem graphAddNode_graphEdges {data : List UInt8} {answer p : Addr}
    (hadd : graphAddNode hash state data answer = .ok (state', p)) :
    state'.memory.graphEdges = state.memory.graphEdges := by
  obtain ⟨found, _, hfound⟩ := Except.bind_eq_ok hadd
  cases hcase : found.1 with
  | none =>
      rw [hcase] at hfound
      obtain ⟨created, hcreate, hstore⟩ := Except.bind_eq_ok hfound
      obtain ⟨stored, _, hstored⟩ := Except.bind_eq_ok hstore
      have hkept : created.1.graphEdges = state.memory.graphEdges := by
        unfold graphNodeCreate at hcreate
        split at hcreate
        · cases hcreate
        · cases hcreate
          rfl
      split at hstored
      · cases hstored
      · cases hstored
        exact hkept
  | some addr =>
      rw [hcase] at hfound
      obtain ⟨node, _, hnode⟩ := Except.bind_eq_ok hfound
      cases hnode
      rfl

theorem graphNodeAddEdge_graphEdges {memory memory' : Memory} {p edge : Addr}
    (hadd : graphNodeAddEdge hash memory p edge = .ok memory') :
    memory'.graphEdges = memory.graphEdges := by
  obtain ⟨node, _, hnode⟩ := Except.bind_eq_ok hadd
  dsimp only at hnode
  split at hnode
  · cases hnode
  · obtain ⟨graphNodes, _, hnodes⟩ := Except.bind_eq_ok hnode
    cases hnodes
    rfl

theorem graphAddEdge_null (h : 0 ∉ state.memory.graphEdges) {call : Call}
    (hadd : graphAddEdge hash state call = .ok state') : 0 ∉ state'.memory.graphEdges := by
  obtain ⟨dst, hdst, hrest⟩ := Except.bind_eq_ok hadd
  obtain ⟨edge, hedge, hrest⟩ := Except.bind_eq_ok hrest
  obtain ⟨src, hsrc, hrest⟩ := Except.bind_eq_ok hrest
  obtain ⟨memory, hmemory, hrest⟩ := Except.bind_eq_ok hrest
  cases hrest
  change 0 ∉ memory.graphEdges
  rw [graphNodeAddEdge_graphEdges hmemory, graphAddNode_graphEdges hsrc]
  unfold graphEdgeCreate at hedge
  split at hedge
  · cases hedge
  · rename_i hanswer
    cases hedge
    change 0 ∉ dst.1.memory.graphEdges.insert call.edge ⟨dst.2⟩
    rw [graphAddNode_graphEdges hdst, Finmap.mem_insert, not_or]
    exact ⟨fun hzero => hanswer hzero.symm, h⟩

theorem graphAddEdge_run_null {maxNodes : UInt64} {calls : List Call}
    (hrun : calls.foldlM (graphAddEdge hash) (graphCreate maxNodes) = .ok state) :
    0 ∉ state.memory.graphEdges :=
  invariant_foldlM (fun _ _ _ h hadd => graphAddEdge_null h hadd) Finmap.notMem_empty hrun

end Edges

variable (hash : List UInt8 → UInt64 → UInt64)

/-- A search never queues its start node again exactly if that is no destination
of the edges for which there is room. -/
theorem never_requeued_iff (maxNodes : UInt64) (calls : List Call) (state : State)
    (hlegal : AlongM (graphAddEdge hash) (Legal hash) (graphCreate maxNodes) calls)
    (hrun : calls.foldlM (graphAddEdge hash) (graphCreate maxNodes) = .ok state)
    (p : Addr) (node : GraphNode) (hnode : state.memory.graphNodes.lookup p = some node) :
    (NeverRequeued hash bfsQueue state.memory p ↔
        ∀ k ∈ (SetT.members node.edges).take 4, destOf state.memory k ≠ some p) ∧
      (NeverRequeued hash dfsStack state.memory p ↔
        ∀ k ∈ (SetT.members node.edges).take 3, destOf state.memory k ≠ some p) := by
  have hinv := inv_run hlegal hrun
  have hedges := hinv.edges p node hnode
  have hp : p ≠ 0 := (hinv.node_of_binds (hinv.node p node hnode)).2.1
  have hnull := graphAddEdge_run_null hrun
  exact ⟨opens_bfsQueue.neverRequeued_iff hedges hnull hp hnode,
    opens_dfsStack.neverRequeued_iff hedges hnull hp hnode⟩

theorem never_requeued_iff_single :
    ∃ (state : State) (node : GraphNode), state.memory.graphNodes.lookup 48 = some node ∧
      (NeverRequeued xxh3 bfsQueue state.memory 48 ↔
        ∀ k ∈ (SetT.members node.edges).take 4, destOf state.memory k ≠ some 48) ∧
      (NeverRequeued xxh3 dfsStack state.memory 48 ↔
        ∀ k ∈ (SetT.members node.edges).take 3, destOf state.memory k ≠ some 48) := by
  obtain ⟨hlegal, state, node, hrun, hnode⟩ := singleCall_runs
  exact ⟨state, node, hnode, never_requeued_iff xxh3 4 singleCall state hlegal hrun 48 node
    hnode⟩

/-- A loop at `a`. -/
def selfCall : List Call := [⟨[97], [97], 16, 32, 0⟩]

/-- The node of the loop is queued while its edges are enumerated. -/
theorem loop_requeued :
    ¬∀ (maxNodes : UInt64) (calls : List Call) (state : State),
      AlongM (graphAddEdge xxh3) (Legal xxh3) (graphCreate maxNodes) calls →
        calls.foldlM (graphAddEdge xxh3) (graphCreate maxNodes) = .ok state →
          ∀ p, p ∈ state.memory.graphNodes →
            NeverRequeued xxh3 bfsQueue state.memory p ∧
              NeverRequeued xxh3 dfsStack state.memory p := by
  intro h
  have hlegal : AlongM (graphAddEdge xxh3) (Legal xxh3) (graphCreate 4) selfCall := by
    decide +kernel
  have hdests : (selfCall.foldlM (graphAddEdge xxh3) (graphCreate 4)).map
      (fun state => (state.memory.graphNodes.lookup 16).map fun node =>
        (SetT.members node.edges).map (destOf state.memory)) = .ok (some [some 16]) := by
    decide +kernel
  obtain ⟨state, hrun, hstate⟩ := Except.map_eq_ok hdests
  obtain ⟨node, hnode, hmembers⟩ := Option.map_eq_some_iff.mp hstate
  have hedges := (inv_run hlegal hrun).edges 16 node hnode
  have hnull := graphAddEdge_run_null hrun
  have hnever := (h 4 selfCall state hlegal hrun 16 (Finmap.mem_of_lookup_eq_some hnode)).1
  obtain ⟨k, hk, hdest⟩ := List.exists_of_mem_map (hmembers ▸ List.mem_singleton_self (some 16))
  rw [opens_bfsQueue.neverRequeued_iff hedges hnull (by decide) hnode] at hnever
  refine hnever k ?_ hdest
  have hlength := congrArg List.length hmembers
  rw [List.length_map, List.length_singleton] at hlength
  rwa [List.take_of_length_le (by omega)]

end Doctrina.Graph
