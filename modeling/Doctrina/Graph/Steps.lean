import Doctrina.Graph.Enumeration
/-!
# The while loop of the traversals, step by step

A step takes a node and fetches its edge list, or looks at one edge of the list
and may queue its destination.  The events of a run are the nodes whose edge
lists were fetched and the nodes that were queued.  `visited` is asked at every
step and filled at none.  A traversal that returns is a run of such steps.
-/

namespace Doctrina.Graph

open Doctrina.Internal Doctrina.Lib.Execution Doctrina.Set

/-- At the top of the while loop, or before edge `i` of a list. -/
inductive Phase
  | taking
  | edges (edges : List UInt8) (numEdges i : Nat)

inductive Event
  | fetched (node : Addr)
  | queued (node : Addr)

structure Loop (σ : Type) where
  pending : σ
  visited : SetT
  phase : Phase
  events : List Event

section Steps

variable {σ : Type} (hash : List UInt8 → UInt64 → UInt64) (work : Traversal σ)
  (memory : Memory)

/-- The destination that an edge asks to be queued, `none` where the loop goes on
to the next edge. -/
def edgeDest (visited : SetT) (edges : List UInt8) (i : Nat) : Except Fault (Option Addr) := do
  let edge ← (bytesAt edges (8 * i) 8).map readLE
  if edge = 0 then return none
  else
    let edge ← memory.graphEdges.load (pointer edge)
    if setExists hash visited (wordBytes edge.dest) = 1 then return none
    else return some edge.dest

def edgeStep (loop : Loop σ) (edges : List UInt8) (numEdges i : Nat) :
    Except Fault (Loop σ) := do
  let dest ← edgeDest hash memory loop.visited edges i
  match dest with
  | none => return { loop with phase := .edges edges numEdges (i + 1) }
  | some dest =>
      let put ← work.put loop.pending (wordBytes dest) 8
      if 0 > put.2 then .error (.exit work.function work.destRefused)
      else return { loop with
        pending := put.1
        phase := .edges edges numEdges (i + 1)
        events := loop.events ++ [.queued dest] }

/-- Returns `none` when the loop is left. -/
def takeStep (loop : Loop σ) : Except Fault (Option (Loop σ)) := do
  let taken ← work.take loop.pending 8
  match taken.2 with
  | none => return none
  | some addr =>
      let node ← readWord addr
      if node = 0 then return none
      else if setExists hash loop.visited (wordBytes node) = 1 then
        return some { loop with pending := taken.1 }
      else
        let object ← memory.graphNodes.load (pointer node)
        let all ← setGetall object.edges (some 0)
        match all.1 with
        | none => .error (.exit work.function "Could not get an edge list from node")
        | some edges =>
            return some { loop with
              pending := taken.1
              phase := .edges edges all.2 0
              events := loop.events ++ [.fetched node] }

def loopStep (loop : Loop σ) : Except Fault (Option (Loop σ)) :=
  match loop.phase with
  | .taking => takeStep hash work memory loop
  | .edges edges numEdges i =>
      if i < numEdges then (edgeStep hash work memory loop edges numEdges i).map some
      else .ok (some { loop with phase := .taking })

/-- The loop with the start node queued and nothing visited. -/
def loopStart (p : Addr) : Except Fault (Loop σ) := do
  let put ← work.put (work.create 32) (wordBytes p) 8
  if 0 > put.2 then .error (.exit work.function work.startRefused)
  else return ⟨put.1, setNew 32, .taking, [.queued p]⟩

def Reaches (start loop : Loop σ) : Prop :=
  Relation.ReflTransGen (fun l l' => loopStep hash work memory l = .ok (some l')) start loop

theorem edgeStep_pending (loop : Loop σ) (edges : List UInt8) (numEdges i : Nat) :
    (edgeStep hash work memory loop edges numEdges i).map Loop.pending =
      traverseEdge hash work memory loop.visited edges loop.pending i := by
  unfold edgeStep edgeDest traverseEdge
  simp only [bind, Except.bind, pure, Except.pure]
  cases hedge : (bytesAt edges (8 * i) 8).map readLE with
  | error e => rfl
  | ok edge =>
      by_cases hzero : edge = 0
      · simp [hzero, Except.map]
      · simp only [if_neg hzero]
        cases hload : memory.graphEdges.load (pointer edge) with
        | error e => rfl
        | ok object =>
            by_cases hvisited : setExists hash loop.visited (wordBytes object.dest) = 1
            · simp [hvisited, Except.map]
            · simp only [if_neg hvisited]
              cases hput : work.put loop.pending (wordBytes object.dest) 8 with
              | error e => rfl
              | ok put =>
                  by_cases hrefused : 0 > put.2
                  · simp [hrefused, Except.map]
                  · simp [hrefused, Except.map]

end Steps

/-! ### A traversal that returns is a run of the loop -/

def Event.fetchedNode : Event → Option Addr
  | .fetched node => some node
  | .queued _ => none

/-- The nodes whose edge lists were fetched, in order. -/
def Loop.enumerated {σ : Type} (loop : Loop σ) : List Addr :=
  loop.events.filterMap Event.fetchedNode

section Simulation

variable {σ : Type} {hash : List UInt8 → UInt64 → UInt64} {work : Traversal σ}
  {memory : Memory} {loop loop' : Loop σ} {edges : List UInt8} {numEdges i : Nat}

theorem edgeStep_ok (h : edgeStep hash work memory loop edges numEdges i = .ok loop') :
    loop'.visited = loop.visited ∧ loop'.phase = .edges edges numEdges (i + 1) ∧
      loop'.enumerated = loop.enumerated := by
  obtain ⟨dest, _, hrest⟩ := Except.bind_eq_ok h
  cases dest with
  | none =>
      cases hrest
      exact ⟨rfl, rfl, rfl⟩
  | some dest =>
      obtain ⟨put, _, hput⟩ := Except.bind_eq_ok hrest
      split at hput
      · cases hput
      · cases hput
        exact ⟨rfl, rfl, by simp [Loop.enumerated, Event.fetchedNode]⟩

theorem traverseEdge_reaches {k : Nat} (hk : i + k = numEdges)
    (hphase : loop.phase = .edges edges numEdges i) {pending : σ}
    (h : (List.range' i k).foldlM (traverseEdge hash work memory loop.visited edges)
      loop.pending = .ok pending) :
    ∃ after, Reaches hash work memory loop after ∧ after.pending = pending ∧
      after.visited = loop.visited ∧ after.phase = .taking ∧
      after.enumerated = loop.enumerated := by
  induction k generalizing i loop with
  | zero =>
      cases h
      have hstep : loopStep hash work memory loop =
          .ok (some { loop with phase := .taking }) := by
        rw [loopStep, hphase]
        exact if_neg (by omega)
      exact ⟨_, .single hstep, rfl, rfl, rfl, rfl⟩
  | succ k ih =>
      rw [List.range'_succ] at h
      obtain ⟨middle, hedge, hrest⟩ := foldlM_cons_ok.mp h
      rw [← edgeStep_pending hash work memory loop edges numEdges i] at hedge
      obtain ⟨next, hnext, rfl⟩ := Except.map_eq_ok hedge
      obtain ⟨hvisited, hphase', henumerated⟩ := edgeStep_ok hnext
      have hround : i < numEdges := by omega
      have hstep : loopStep hash work memory loop = .ok (some next) := by
        rw [loopStep, hphase]
        simp only [if_pos hround, hnext]
        rfl
      rw [← hvisited] at hrest
      obtain ⟨after, hreach, hpending, hv, htaking, he⟩ := ih (by omega) hphase' hrest
      exact ⟨after, .head hstep hreach, hpending, hv.trans hvisited, htaking,
        he.trans henumerated⟩

theorem takeStep_visited {rest : σ} {addr : List UInt8} {node : Addr}
    (htake : work.take loop.pending 8 = .ok (rest, some addr)) (hnode : readWord addr = .ok node)
    (hzero : node ≠ 0) (hexists : setExists hash loop.visited (wordBytes node) = 1) :
    takeStep hash work memory loop = .ok (some { loop with pending := rest }) := by
  rw [takeStep]
  simp only [htake, hnode, bind, Except.bind, if_neg hzero, if_pos hexists]
  rfl

theorem takeStep_fetches {rest : σ} {addr : List UInt8} {node : Addr} {object : GraphNode}
    (htake : work.take loop.pending 8 = .ok (rest, some addr)) (hnode : readWord addr = .ok node)
    (hzero : node ≠ 0) (hexists : ¬setExists hash loop.visited (wordBytes node) = 1)
    (hload : memory.graphNodes.load (pointer node) = .ok object)
    (hall : setGetall object.edges (some 0) = .ok (some edges, numEdges)) :
    takeStep hash work memory loop = .ok (some
      ⟨rest, loop.visited, .edges edges numEdges 0, loop.events ++ [.fetched node]⟩) := by
  rw [takeStep]
  simp only [htake, hnode, bind, Except.bind, if_neg hzero, if_neg hexists, hload, hall]
  rfl

/-- A run of the loop to its end enumerates what the traversal returns. -/
theorem traverseLoop_reaches {fuel : Nat} {result : List Addr}
    (hphase : loop.phase = .taking)
    (h : traverseLoop hash work memory loop.visited fuel loop.pending loop.enumerated =
      .ok result) :
    ∃ last, Reaches hash work memory loop last ∧ loopStep hash work memory last = .ok none ∧
      last.enumerated = result := by
  induction fuel generalizing loop with
  | zero => cases h
  | succ fuel ih =>
      obtain ⟨⟨pending, taken⟩, htake, hrest⟩ := Except.bind_eq_ok h
      have hloop : loopStep hash work memory loop = takeStep hash work memory loop := by
        rw [loopStep, hphase]
      cases taken with
      | none =>
          cases hrest
          refine ⟨loop, .refl, ?_, rfl⟩
          rw [hloop, takeStep, htake]
          rfl
      | some addr =>
          obtain ⟨node, hnode, hrest⟩ := Except.bind_eq_ok hrest
          by_cases hzero : node = 0
          · rw [if_pos hzero] at hrest
            cases hrest
            refine ⟨loop, .refl, ?_, rfl⟩
            rw [hloop, takeStep]
            simp only [htake, hnode, bind, Except.bind, if_pos hzero]
            rfl
          rw [if_neg hzero] at hrest
          by_cases hexists : setExists hash loop.visited (wordBytes node) = 1
          · rw [if_pos hexists] at hrest
            have hstep : loopStep hash work memory loop =
                .ok (some { loop with pending := pending }) :=
              hloop.trans (takeStep_visited htake hnode hzero hexists)
            obtain ⟨last, hreach, hend⟩ := @ih { loop with pending := pending } hphase hrest
            exact ⟨last, .head hstep hreach, hend⟩
          rw [if_neg hexists] at hrest
          obtain ⟨pending', hedges, hrest⟩ := Except.bind_eq_ok hrest
          obtain ⟨object, hload, hedges⟩ := Except.bind_eq_ok hedges
          obtain ⟨⟨buffer, numEdges⟩, hall, hedges⟩ := Except.bind_eq_ok hedges
          cases buffer with
          | none => cases hedges
          | some edges =>
              rw [List.range_eq_range'] at hedges
              let fetched : Loop σ :=
                ⟨pending, loop.visited, .edges edges numEdges 0, loop.events ++ [.fetched node]⟩
              have hstep : loopStep hash work memory loop = .ok (some fetched) :=
                hloop.trans (takeStep_fetches htake hnode hzero hexists hload hall)
              have henumerated : fetched.enumerated = loop.enumerated ++ [node] := by
                simp [fetched, Loop.enumerated, Event.fetchedNode]
              obtain ⟨after, hreach, hpending, hvisited, htaking, hsame⟩ :=
                @traverseEdge_reaches _ _ _ _ fetched edges numEdges 0 numEdges (Nat.zero_add _)
                  rfl pending' hedges
              have hvisited' : after.visited = loop.visited := hvisited
              rw [← henumerated, ← hsame, ← hpending, ← hvisited'] at hrest
              obtain ⟨last, hreach', hend⟩ := ih htaking hrest
              exact ⟨last, .head hstep (hreach.trans hreach'), hend⟩

end Simulation

end Doctrina.Graph
