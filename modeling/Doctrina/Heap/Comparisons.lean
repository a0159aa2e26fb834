import Doctrina.Heap.Refinement
import Doctrina.Lib.PairingCost
import Doctrina.Lib.Potential
import Mathlib.Data.FinEnum
import Mathlib.Algebra.BigOperators.Group.Finset.Basic
import Mathlib.Algebra.Order.BigOperators.Group.Finset
/-!
# The calls of the comparator

The functions of heap.c that compare, with a counter of the comparator calls
in their state; without the counter they are the functions of `Heap.Basic`.
A run makes as many calls as the pairing heaps it stands for make comparisons,
so the potential method bounds them: a push or a merge costs one call and a
logarithm, a pop two logarithms, on average over any run and for any
comparator.
-/

namespace Doctrina.Heap

open Doctrina.Lib.Execution Doctrina.Lib.PairingHeap

variable {α : Type}

def mergeNodesCounted (nodes : Store (HeapNode α)) (node1 node2 : Option Addr)
    (cmp : α → α → Int) (calls : Nat) :
    Except Fault ((Store (HeapNode α) × Option Addr) × Nat) :=
  match node1, node2 with
  | none, _ => .ok ((nodes, node2), calls)
  | some _, none => .ok ((nodes, node1), calls)
  | some _, some _ => do
      let first ← nodes.load node1
      let second ← nodes.load node2
      let calls := calls + 1
      if cmp first.data second.data ≤ 0 then
        (adopt nodes node1 node2).map fun nodes => ((nodes, node1), calls)
      else
        (adopt nodes node2 node1).map fun nodes => ((nodes, node2), calls)

def mergePairsCounted (cmp : α → α → Int) : Nat → Store (HeapNode α) → Option Addr → Nat →
    Except Fault ((Store (HeapNode α) × Option Addr) × Nat)
  | 0, _, _, _ => .error .outOfFuel
  | _ + 1, nodes, none, calls => .ok ((nodes, none), calls)
  | fuel + 1, nodes, some first, calls => do
      let node ← nodes.load (some first)
      match node.sibling with
      | none => return ((nodes, some first), calls)
      | some second =>
          let other ← nodes.load (some second)
          let remaining := other.sibling
          let nodes ← nodes.modify (some first) (HeapNode.setSibling none)
          let nodes ← nodes.modify (some second) (HeapNode.setSibling none)
          let (result, calls) ← mergeNodesCounted nodes (some first) (some second) cmp calls
          let (rest, calls) ← mergePairsCounted cmp fuel result.1 remaining calls
          mergeNodesCounted rest.1 result.2 rest.2 cmp calls

def heapPushCounted (self : Memory α) (heap : Option Addr) (data : α) (answer : Option Addr)
    (calls : Nat) : Except Fault ((Memory α × Int) × Nat) :=
  match answer with
  | none => .error (.exit "heap_push" "could not allocate node")
  | some node => do
      let nodes := self.nodes.insert node ⟨data, none, none⟩
      let object ← self.heaps.load heap
      let (merged, calls) ← mergeNodesCounted nodes object.root (some node) object.cmp calls
      let heaps ← self.heaps.modify heap (HeapT.setRoot merged.2)
      return ((⟨heaps, merged.1⟩, 0), calls)

def heapPopCounted (self : Memory α) (heap : Option Addr) (calls : Nat) :
    Except Fault ((Memory α × Option α) × Nat) :=
  match heap with
  | none => .ok ((self, none), calls)
  | some _ => do
      let object ← self.heaps.load heap
      match object.root with
      | none => return ((self, none), calls)
      | some oldRoot =>
          let node ← self.nodes.load (some oldRoot)
          let (merged, calls) ←
            mergePairsCounted object.cmp self.nodes.fuel self.nodes node.child calls
          let heaps ← self.heaps.modify heap (HeapT.setRoot merged.2)
          let nodes ← merged.1.free oldRoot
          return ((⟨heaps, nodes⟩, some node.data), calls)

def heapMergeCounted (self : Memory α) (h1 h2 : Option Addr) (calls : Nat) :
    Except Fault ((Memory α × Option Addr) × Nat) :=
  match h1, h2 with
  | none, _ => .ok ((self, h2), calls)
  | some _, none => .ok ((self, h1), calls)
  | some _, some second => do
      let object1 ← self.heaps.load h1
      let object2 ← self.heaps.load h2
      let (merged, calls) ←
        mergeNodesCounted self.nodes object1.root object2.root object1.cmp calls
      let heaps ← self.heaps.modify h1 (HeapT.setRoot merged.2)
      let heaps ← heaps.free second
      return ((⟨heaps, merged.1⟩, h1), calls)

def callCounted (cmp : α → α → Int) (self : Memory α) (calls : Nat) :
    Op α → Except Fault ((Memory α × Result α) × Nat)
  | .push heap data answer =>
      (heapPushCounted self heap data answer calls).map fun ((self, value), calls) =>
        ((self, .status value), calls)
  | .pop heap =>
      (heapPopCounted self heap calls).map fun ((self, data), calls) =>
        ((self, .item data), calls)
  | .merge h1 h2 =>
      (heapMergeCounted self h1 h2 calls).map fun ((self, heap), calls) =>
        ((self, .heap heap), calls)
  | op => (call cmp self op).map fun result => (result, calls)

section Counter

variable {cmp : α → α → Int} {nodes : Store (HeapNode α)} {self : Memory α}

def linked : Option Addr → Option Addr → Nat
  | some _, some _ => 1
  | _, _ => 0

theorem mergeNodesCounted_eq (nodes : Store (HeapNode α)) (node1 node2 : Option Addr)
    (cmp : α → α → Int) (calls : Nat) : mergeNodesCounted nodes node1 node2 cmp calls =
      (mergeNodes nodes node1 node2 cmp).map fun r => (r, calls + linked node1 node2) := by
  cases node1 with
  | none => rfl
  | some a =>
      cases node2 with
      | none => rfl
      | some b =>
          simp only [mergeNodesCounted, mergeNodes, linked]
          cases nodes.load (some a) with
          | error e => rfl
          | ok first =>
              cases nodes.load (some b) with
              | error e => rfl
              | ok second =>
                  simp only [bind, Except.bind]
                  split
                  · cases adopt nodes (some a) (some b) <;> rfl
                  · cases adopt nodes (some b) (some a) <;> rfl

@[simp] theorem linked_root (t u : Shape α) :
    linked (Shape.root t) (Shape.root u) = Forest.mergeCost t u := by
  cases t with
  | nil => rfl
  | node x c s => cases u <;> rfl

/-- Without its counter merge_pairs is what it was. -/
theorem mergePairsCounted_erase (cmp : α → α → Int) (fuel : Nat) (nodes : Store (HeapNode α))
    (first : Option Addr) (calls : Nat) :
    (mergePairsCounted cmp fuel nodes first calls).map Prod.fst =
      mergePairs cmp fuel nodes first := by
  induction fuel generalizing nodes first calls with
  | zero => rfl
  | succ fuel ih =>
      cases first with
      | none => rfl
      | some first =>
          simp only [mergePairsCounted, mergePairs, Except.map_bind]
          refine bind_congr fun node => ?_
          cases node.sibling with
          | none => rfl
          | some second =>
              simp only [Except.map_bind, mergeNodesCounted_eq, Except.bind_map]
              refine bind_congr fun other => bind_congr fun nodes => bind_congr fun nodes =>
                bind_congr fun result => ?_
              simp only [← ih result.1 other.sibling (calls + linked (some first) (some second)),
                Except.bind_map, Except.map_map, Except.map_id']

theorem mergePairsCounted_succ {x y : Addr × α} {c d rest : Shape α}
    (h : Rep nodes (.node x c (.node y d rest))) {nodes' : Store (HeapNode α)}
    (hcut : (do
        let nodes ← nodes.modify (some x.1) (HeapNode.setSibling none)
        nodes.modify (some y.1) (HeapNode.setSibling none)) = .ok nodes') (fuel calls : Nat) :
    mergePairsCounted cmp (fuel + 1) nodes (some x.1) calls = (do
      let (result, calls) ← mergeNodesCounted nodes' (some x.1) (some y.1) cmp calls
      let (rest, calls) ← mergePairsCounted cmp fuel result.1 rest.root calls
      mergeNodesCounted rest.1 result.2 rest.2 cmp calls) := by
  obtain ⟨hx, _, hy, _, _⟩ := h
  simp only [bind, Except.bind] at hcut
  simp only [mergePairsCounted, Store.load_eq hx, root_node, Store.load_eq hy, bind, Except.bind]
  split at hcut
  · cases hcut
  · rw [hcut]

theorem mergePairsCounted_rep (cmp : α → α → Int) {t : Shape α} (h : Rep nodes t)
    (hnodup : (Shape.addrs t).Nodup) {fuel : Nat} (hfuel : (Shape.addrs t).length < fuel)
    (calls : Nat) : mergePairsCounted cmp fuel nodes t.root calls =
      (mergePairs cmp fuel nodes t.root).map fun r =>
        (r, calls + Forest.mergePairsCost (Le cmp) t) := by
  induction t using Forest.mergePairs.induct generalizing nodes fuel calls with
  | case1 =>
      cases fuel with
      | zero => simp at hfuel
      | succ fuel => rfl
  | case2 x c =>
      cases fuel with
      | zero => simp at hfuel
      | succ fuel =>
          simp only [root_node, mergePairsCounted, mergePairs, Store.load_eq h.1, root_nil, bind,
            Except.bind]
          rfl
  | case3 x c y d rest ih =>
      cases fuel with
      | zero => simp at hfuel
      | succ fuel =>
          obtain ⟨nodes₁, hcut, hx, hy, hrest, hframe₁⟩ := cut_rep h hnodup
          have haddrs : Shape.addrs (.node x c (.node y d rest)) =
              (Shape.addrs (.node x c .nil) ++ Shape.addrs (.node y d .nil)) ++
                Shape.addrs rest := by simp
          rw [haddrs] at hnodup hfuel
          have hsplit := List.nodup_append.mp hnodup
          have hfuel' : (Shape.addrs rest).length < fuel := by
            simp at hfuel
            omega
          obtain ⟨nodes₂, hmerge, hpair, hframe₂⟩ := mergeNodes_rep cmp hx hy hsplit.1
          have hrest₂ : Rep nodes₂ rest :=
            hrest.frame hframe₂ fun a ha hmem => hsplit.2.2 a hmem a ha rfl
          obtain ⟨nodes₃, hrec, _, _⟩ := mergePairs_rep cmp hrest₂ hsplit.2.1 hfuel'
          have hcounted := ih hrest₂ hsplit.2.1 hfuel'
            (calls + linked (some x.1) (some y.1))
          rw [hrec] at hcounted
          rw [root_node, root_node] at hmerge
          rw [root_node, mergePairs_succ h hcut, mergePairsCounted_succ h hcut]
          simp only [mergeNodesCounted_eq, hmerge, hrec, hcounted, Except.map, bind, Except.bind,
            linked_root]
          rw [Forest.mergePairsCost]
          simp only [linked, Forest.mergeCost, Nat.add_assoc]

/-- Without their counter the calls are what they were, also where they
fault. -/
theorem callCounted_erase (cmp : α → α → Int) (self : Memory α) (calls : Nat) (op : Op α) :
    (callCounted cmp self calls op).map Prod.fst = call cmp self op := by
  cases op with
  | push heap data answer =>
      cases answer with
      | none => rfl
      | some node =>
          simp only [callCounted, call, heapPushCounted, heapPush, Except.map_bind,
            mergeNodesCounted_eq, Except.bind_map, Except.map_map]
          rfl
  | pop heap =>
      cases heap with
      | none => rfl
      | some g =>
          simp only [callCounted, call, heapPopCounted, heapPop, Except.map_bind, Except.map_map]
          refine bind_congr fun object => ?_
          cases object.root with
          | none => rfl
          | some oldRoot =>
              simp only [Except.map_bind]
              refine bind_congr fun node => ?_
              rw [← mergePairsCounted_erase object.cmp self.nodes.fuel self.nodes node.child calls,
                Except.bind_map]
              rfl
  | merge h1 h2 =>
      cases h1 with
      | none => rfl
      | some g₁ =>
          cases h2 with
          | none => rfl
          | some g₂ =>
              simp only [callCounted, call, heapMergeCounted, heapMerge, Except.map_bind,
                mergeNodesCounted_eq, Except.bind_map, Except.map_map]
              rfl
  | new | poll | destroy => simp only [callCounted, Except.map_map, Except.map_id']

/-- The comparisons of a call, on the forests of its heaps. -/
def viewCost (cmp : α → α → Int) (views : Views α) : Op α → Nat
  | .push (some h) data (some a) =>
      (views h).elim 0 fun t => Forest.mergeCost t (Forest.single (a, data))
  | .pop (some h) => (views h).elim 0 (Forest.popCost (Le cmp))
  | .merge (some h1) (some h2) =>
      (views h1).elim 0 fun t => (views h2).elim 0 (Forest.mergeCost t)
  | _ => 0

theorem callCounted_eq {views : Views α} (h : Refines self cmp views) {op : Op α}
    (hlegal : Legal self op) (calls : Nat) : callCounted cmp self calls op =
      (call cmp self op).map fun r => (r, calls + viewCost cmp views op) := by
  cases op with
  | new | poll | destroy => simp only [callCounted, viewCost, Nat.add_zero]
  | push heap data answer =>
      obtain ⟨hlive, hfresh⟩ := hlegal
      cases heap with
      | none => exact hlive.elim
      | some g =>
          cases answer with
          | none => exact hfresh.elim
          | some a =>
              obtain ⟨t, hg, hheap⟩ := h.view_of_live hlive
              have hlinked : linked (Shape.root t) (some a) =
                  Forest.mergeCost t (Forest.single (a, data)) :=
                linked_root t (Forest.single (a, data))
              simp only [callCounted, call, heapPushCounted, heapPush, Store.load_eq hheap,
                Except.map_bind, mergeNodesCounted_eq, Except.bind_map, Except.map_map, viewCost,
                hg, Option.elim, ← hlinked]
              rfl
  | pop heap =>
      cases heap with
      | none => rfl
      | some g =>
          obtain ⟨t, hg, hheap⟩ := h.view_of_live (of_null_or hlegal)
          simp only [callCounted, call, heapPopCounted, heapPop, Store.load_eq hheap, viewCost,
            hg, Option.elim, Except.map_bind]
          cases t with
          | nil => rfl
          | node x c s =>
              have hrep := h.rep g _ hg
              have hs : s = .nil := h.single g _ hg
              subst hs
              have hnodup := h.nodup g _ hg
              rw [addrs_node, addrs_nil, List.append_nil, List.nodup_cons] at hnodup
              have hfuel : (Shape.addrs c).length < self.nodes.fuel :=
                Store.length_lt_fuel hnodup.2 hrep.2.1.live
              have hpairs := mergePairsCounted_rep cmp hrep.2.1 hnodup.2 hfuel calls
              simp only [bind, Except.bind, root_node, Store.load_eq hrep.1, hpairs]
              cases mergePairs cmp self.nodes.fuel self.nodes (Shape.root c) with
              | error e => rfl
              | ok merged =>
                  simp only [Except.map]
                  cases self.heaps.modify (some g) (HeapT.setRoot merged.2) with
                  | error e => rfl
                  | ok heaps => cases Store.free merged.1 x.1 <;> rfl
  | merge h1 h2 =>
      cases h1 with
      | none => rfl
      | some g₁ =>
          cases h2 with
          | none => rfl
          | some g₂ =>
              obtain ⟨hlive₁, hlive₂, _⟩ := hlegal
              obtain ⟨t₁, hg₁, hheap₁⟩ := h.view_of_live (of_null_or hlive₁)
              obtain ⟨t₂, hg₂, hheap₂⟩ := h.view_of_live (of_null_or hlive₂)
              simp only [callCounted, call, heapMergeCounted, heapMerge, Store.load_eq hheap₁,
                Store.load_eq hheap₂, Except.map_bind, mergeNodesCounted_eq, Except.bind_map,
                Except.map_map, viewCost, hg₁, hg₂, Option.elim, ← linked_root]
              rfl

end Counter

section Accounts

/-- The elements of the heaps, from the calls alone. -/
def sizeStep (sizes : Addr → Nat) : Op α → Addr → Nat
  | .new (some h) => Function.update sizes h 0
  | .push (some h) _ (some _) => Function.update sizes h (sizes h + 1)
  | .pop (some h) => Function.update sizes h (sizes h - 1)
  | .merge (some h1) (some h2) =>
      Function.update (Function.update sizes h1 (sizes h1 + sizes h2)) h2 0
  | .destroy (some h) => Function.update sizes h 0
  | _ => sizes

/-- The comparator calls that a call is allowed. -/
noncomputable def allowance (sizes : Addr → Nat) : Op α → ℝ
  | .push (some h) _ _ => Forest.mergeBound (sizes h + 1)
  | .pop (some h) => Forest.popBound (sizes h)
  | .merge (some h1) (some h2) => Forest.mergeBound (sizes h1 + sizes h2)
  | _ => 0

def Views.sizes (views : Views α) (h : Addr) : Nat := (views h).elim 0 Forest.size

noncomputable def Views.potential (views : Views α) : ℝ :=
  ∑ h, (views h).elim 0 Forest.potential

/-- What `Legal` says of a view: items go to heaps that exist, and two
different ones are merged. -/
def LegalView (views : Views α) : Op α → Prop
  | .push (some h) _ _ => views h ≠ none
  | .merge (some h1) (some h2) => h1 ≠ h2 ∧ views h1 ≠ none ∧ views h2 ≠ none
  | _ => True

def AllSingle (views : Views α) : Prop := ∀ h t, views h = some t → t.Single

variable {cmp : α → α → Int} {views : Views α}

theorem allSingle_update (h : AllSingle views) (g : Addr) {u : Option (Shape α)}
    (hu : ∀ t, u = some t → t.Single) : AllSingle (Function.update views g u) := by
  intro g' t hg'
  by_cases heq : g' = g
  · rw [heq, Function.update_self] at hg'
    exact hu t hg'
  · rw [Function.update_of_ne heq] at hg'
    exact h g' t hg'

theorem allSingle_viewStep (h : AllSingle views) (op : Op α) :
    AllSingle (viewStep cmp views op) := by
  unfold viewStep
  split
  · exact allSingle_update h _ fun t ht => Option.some.inj ht ▸ Forest.single_nil
  · next g data a =>
      refine allSingle_update h g fun t ht => ?_
      obtain ⟨u, hu, rfl⟩ := Option.map_eq_some_iff.mp ht
      exact Forest.merge_single (h g u hu) (Forest.single_single _)
  · next g =>
      refine allSingle_update h g fun t ht => ?_
      obtain ⟨u, hu, rfl⟩ := Option.map_eq_some_iff.mp ht
      cases u with
      | nil => exact Forest.single_nil
      | node x c s => exact Forest.mergePairs_single c
  · next g₁ g₂ =>
      refine allSingle_update (allSingle_update h g₁ fun t ht => ?_) g₂ (by simp)
      obtain ⟨u₁, hu₁, ht⟩ := Option.bind_eq_some_iff.mp ht
      obtain ⟨u₂, hu₂, rfl⟩ := Option.map_eq_some_iff.mp ht
      exact Forest.merge_single (h g₁ u₁ hu₁) (h g₂ u₂ hu₂)
  · exact allSingle_update h _ (by simp)
  · exact h

theorem sizes_update (views : Views α) (g : Addr) (u : Option (Shape α)) :
    Views.sizes (Function.update views g u) =
      Function.update views.sizes g (u.elim 0 Forest.size) := by
  funext g'
  rw [Views.sizes, Function.update_apply, Function.update_apply]
  split <;> rfl

theorem sizes_viewStep (h : AllSingle views) {op : Op α} (hlegal : LegalView views op) :
    Views.sizes (viewStep cmp views op) = sizeStep views.sizes op := by
  cases op with
  | new answer =>
      cases answer with
      | none => rfl
      | some g => exact sizes_update views g _
  | push heap data answer =>
      cases heap with
      | none => rfl
      | some g =>
          cases answer with
          | none => rfl
          | some a =>
              obtain ⟨t, hg⟩ := Option.ne_none_iff_exists'.mp hlegal
              rw [viewStep, sizes_update, sizeStep, hg, Option.map_some, Option.elim_some,
                Forest.size_merge (h g t hg) (Forest.single_single _), Views.sizes, hg]
              rfl
  | poll heap => rfl
  | pop heap =>
      cases heap with
      | none => rfl
      | some g =>
          rw [viewStep, sizes_update, sizeStep, Views.sizes]
          cases hg : views g with
          | none => rfl
          | some t =>
              have hsingle := h g t hg
              cases t with
              | nil => rfl
              | node x c s =>
                  rw [Forest.single_node] at hsingle
                  subst hsingle
                  rw [Option.map_some, Option.elim_some, Option.elim_some, Forest.pop,
                    Forest.size_mergePairs, Forest.size_node, Forest.size_nil]
                  rfl
  | merge h1 h2 =>
      cases h1 with
      | none => rfl
      | some g₁ =>
          cases h2 with
          | none => rfl
          | some g₂ =>
              obtain ⟨_, hlive₁, hlive₂⟩ := hlegal
              obtain ⟨t₁, hg₁⟩ := Option.ne_none_iff_exists'.mp hlive₁
              obtain ⟨t₂, hg₂⟩ := Option.ne_none_iff_exists'.mp hlive₂
              rw [viewStep, sizes_update, sizes_update, sizeStep, hg₁, hg₂, Option.bind_some,
                Option.map_some, Option.elim_some,
                Forest.size_merge (h g₁ t₁ hg₁) (h g₂ t₂ hg₂), Views.sizes, Views.sizes, hg₁, hg₂]
              rfl
  | destroy heap =>
      cases heap with
      | none => rfl
      | some g => exact sizes_update views g none

theorem potential_update (views : Views α) (g : Addr) (u : Option (Shape α)) :
    Views.potential (Function.update views g u) + (views g).elim 0 Forest.potential =
      views.potential + u.elim 0 Forest.potential :=
  sum_update_add (fun t => Option.elim t 0 Forest.potential) views g u

theorem elim_potential_nonneg (t : Option (Shape α)) : 0 ≤ t.elim 0 Forest.potential := by
  cases t with
  | none => exact le_refl _
  | some t => exact Forest.potential_nonneg t

theorem viewCost_le (cmp : α → α → Int) (h : AllSingle views) {op : Op α}
    (hlegal : LegalView views op) :
    (viewCost cmp views op : ℝ) + (viewStep cmp views op).potential ≤
      allowance views.sizes op + views.potential := by
  cases op with
  | new answer =>
      cases answer with
      | none => simp [viewCost, viewStep, allowance]
      | some g =>
          have hupdate := potential_update views g (some .nil)
          have hold := elim_potential_nonneg (views g)
          simp only [Option.elim_some, Forest.potential_nil] at hupdate
          simp only [viewCost, viewStep, allowance, Nat.cast_zero]
          linarith
  | push heap data answer =>
      cases heap with
      | none => simp [viewCost, viewStep, allowance]
      | some g =>
          cases answer with
          | none =>
              have hbound := Forest.mergeBound_nonneg (views.sizes g + 1)
              simp only [viewCost, viewStep, allowance, Nat.cast_zero]
              linarith
          | some a =>
              obtain ⟨t, hg⟩ := Option.ne_none_iff_exists'.mp hlegal
              have hupdate := potential_update views g
                ((views g).map fun t => Forest.merge (Le cmp) t (Forest.single (a, data)))
              have hmerge := Forest.merge_amortized (Le cmp) (h g t hg)
                (Forest.single_single (a, data))
              have hone : (Forest.single (a, data)).size = 1 := rfl
              rw [hone, Forest.potential_single] at hmerge
              simp only [hg, Option.map_some, Option.elim_some] at hupdate
              simp only [viewCost, viewStep, allowance, Views.sizes, hg, Option.map_some,
                Option.elim_some]
              linarith
  | poll heap => simp [viewCost, viewStep, allowance]
  | pop heap =>
      cases heap with
      | none => simp [viewCost, viewStep, allowance]
      | some g =>
          have hupdate := potential_update views g ((views g).map (Forest.pop (Le cmp)))
          cases hg : views g with
          | none =>
              simp only [hg, Option.map_none, Option.elim_none] at hupdate
              have hbound := Forest.popBound_nonneg (views.sizes g)
              simp only [viewCost, viewStep, allowance, hg, Option.map_none, Option.elim_none,
                Nat.cast_zero]
              linarith
          | some t =>
              have hpop := Forest.pop_amortized (Le cmp) (h g t hg)
              simp only [hg, Option.map_some, Option.elim_some] at hupdate
              simp only [viewCost, viewStep, allowance, Views.sizes, hg, Option.map_some,
                Option.elim_some]
              linarith
  | merge h1 h2 =>
      cases h1 with
      | none => simp [viewCost, viewStep, allowance]
      | some g₁ =>
          cases h2 with
          | none => simp [viewCost, viewStep, allowance]
          | some g₂ =>
              obtain ⟨hne, hlive₁, hlive₂⟩ := hlegal
              obtain ⟨t₁, hg₁⟩ := Option.ne_none_iff_exists'.mp hlive₁
              obtain ⟨t₂, hg₂⟩ := Option.ne_none_iff_exists'.mp hlive₂
              have hupdate₁ := potential_update views g₁ (some (Forest.merge (Le cmp) t₁ t₂))
              have hupdate₂ := potential_update
                (Function.update views g₁ (some (Forest.merge (Le cmp) t₁ t₂))) g₂ none
              have hmerge := Forest.merge_amortized (Le cmp) (h g₁ t₁ hg₁) (h g₂ t₂ hg₂)
              rw [Function.update_of_ne (Ne.symm hne)] at hupdate₂
              simp only [hg₁, hg₂, Option.elim_some, Option.elim_none] at hupdate₁ hupdate₂
              simp only [viewCost, viewStep, allowance, Views.sizes, hg₁, hg₂, Option.bind_some,
                Option.map_some, Option.elim_some]
              linarith
  | destroy heap =>
      cases heap with
      | none => simp [viewCost, viewStep, allowance]
      | some g =>
          have hupdate := potential_update views g none
          have hold := elim_potential_nonneg (views g)
          simp only [Option.elim_none] at hupdate
          simp only [viewCost, viewStep, allowance, Nat.cast_zero]
          linarith

end Accounts

section Runs

structure Counted (α : Type) where
  memory : Memory α
  calls : Nat

def Counted.init : Counted α := ⟨⟨∅, ∅⟩, 0⟩

def Counted.step (cmp : α → α → Int) (run : Counted α) (op : Op α) :
    Except Fault (Counted α) :=
  (callCounted cmp run.memory run.calls op).map fun ((memory, _), calls) => ⟨memory, calls⟩

/-- The run returns from every call, and the comparator has been called at most
so often. -/
def RunsWithin (cmp : α → α → Int) (ops : List (Op α)) (bound : ℝ) : Prop :=
  ∃ run, ops.foldlM (Counted.step cmp) Counted.init = .ok run ∧ (run.calls : ℝ) ≤ bound

variable {cmp : α → α → Int} {ops : List (Op α)}

/-- A view, and the comparisons of the calls that led to it. -/
def Accounted (cmp : α → α → Int) (spent : Views α × Nat) (run : Counted α) : Prop :=
  Refines run.memory cmp spent.1 ∧ run.calls = spent.2

theorem accounted_step (spent : Views α × Nat) (run : Counted α) (op : Op α)
    (h : Accounted cmp spent run) (hlegal : Legal run.memory op) :
    ∃ run', Counted.step cmp run op = .ok run' ∧
      Accounted cmp (counter (viewStep cmp) (viewCost cmp) spent op) run' := by
  obtain ⟨hrefines, hcalls⟩ := h
  obtain ⟨memory', hcall, hrefines'⟩ := hrefines.call hlegal
  refine ⟨⟨memory', run.calls + viewCost cmp spent.1 op⟩, ?_, hrefines', ?_⟩
  · rw [Counted.step, callCounted_eq hrefines hlegal, hcall]
    rfl
  · rw [counter, hcalls]

theorem accounted_init : Accounted cmp (fun _ => none, 0) (Counted.init : Counted α) :=
  ⟨refines_empty, rfl⟩

theorem legalView_of_legal (spent : Views α × Nat) (run : Counted α) (op : Op α)
    (h : Accounted cmp spent run) (hlegal : Legal run.memory op) : LegalView spent.1 op := by
  have hview : ∀ g, run.memory.Live (some g) → spent.1 g ≠ none := by
    intro g hlive
    obtain ⟨t, hg, _⟩ := h.1.view_of_live hlive
    simp [hg]
  unfold LegalView
  split
  · exact hview _ hlegal.1
  · refine ⟨fun heq => ?_, hview _ (of_null_or hlegal.1), hview _ (of_null_or hlegal.2.1)⟩
    exact of_null_or hlegal.2.2 (congrArg some heq)
  · trivial

theorem calls_eq_total
    (hlegal : AlongM (Counted.step cmp) (fun run op => Legal run.memory op) Counted.init ops) :
    ∃ run, ops.foldlM (Counted.step cmp) Counted.init = .ok run ∧
      run.calls = total (viewStep cmp) (viewCost cmp) (fun _ => none) ops := by
  obtain ⟨run, hrun, _, hcalls⟩ := simulation_foldlM accounted_step accounted_init hlegal
  refine ⟨run, hrun, ?_⟩
  rw [hcalls, foldl_counter, Nat.zero_add]

theorem along_legalView
    (hlegal : AlongM (Counted.step cmp) (fun run op => Legal run.memory op) Counted.init ops) :
    Along (viewStep cmp) LegalView (fun _ => none) ops :=
  along_counter.mp (along_of_simulation accounted_step legalView_of_legal accounted_init hlegal)

theorem allSingle_empty : AllSingle (fun _ => none : Views α) := fun _ _ h => by cases h

theorem potential_empty : Views.potential (fun _ => none : Views α) = 0 := by
  simp [Views.potential]

theorem potential_views_nonneg (views : Views α) : 0 ≤ views.potential :=
  Finset.sum_nonneg fun h _ => elim_potential_nonneg (views h)

theorem total_natCast (views : Views α) (ops : List (Op α)) :
    ((total (viewStep cmp) (viewCost cmp) views ops : ℕ) : ℝ) =
      total (viewStep cmp) (fun views op => (viewCost cmp views op : ℝ)) views ops := by
  induction ops generalizing views with
  | nil => simp
  | cons op ops ih => simp [ih]

theorem total_viewCost_le (halong : Along (viewStep cmp) LegalView (fun _ => none) ops) :
    ((total (viewStep cmp) (viewCost cmp) (fun _ => none) ops : ℕ) : ℝ) ≤
      total sizeStep allowance (fun _ => 0) ops := by
  have hkeep : ∀ views op, AllSingle views → LegalView views op →
      AllSingle (viewStep cmp views op) := fun _ op h _ => allSingle_viewStep h op
  have haccounts := total_add_potential_le hkeep
    (fun _ _ h hop => viewCost_le cmp h hop) allSingle_empty halong
  have hsizes : total (viewStep cmp) (fun views op => allowance views.sizes op)
      (fun _ => none) ops = total sizeStep allowance (Views.sizes fun _ => none) ops :=
    total_image Views.sizes allowance hkeep (fun _ _ h hop => sizes_viewStep h hop)
      (fun _ _ _ _ => rfl) allSingle_empty halong
  have hzero : Views.sizes (fun _ => none : Views α) = fun _ => 0 := rfl
  have hend := potential_views_nonneg (ops.foldl (viewStep cmp) fun _ => none)
  rw [potential_empty, hsizes, hzero] at haccounts
  rw [total_natCast]
  linarith

/-- In every run of legal calls, whatever the comparator returns. -/
theorem comparisons_amortized (cmp : α → α → Int) (ops : List (Op α))
    (hlegal : AlongM (Counted.step cmp) (fun run op => Legal run.memory op)
      Counted.init ops) :
    RunsWithin cmp ops (total sizeStep allowance (fun _ => 0) ops) := by
  obtain ⟨run, hrun, hcalls⟩ := calls_eq_total hlegal
  refine ⟨run, hrun, ?_⟩
  rw [hcalls]
  exact total_viewCost_le (along_legalView hlegal)

theorem comparisons_amortized_merge :
    RunsWithin (fun x y : Int => x - y)
      [.new (some 1), .push (some 1) 5 (some 2), .new (some 3), .push (some 3) 4 (some 4),
        .push (some 3) 6 (some 5), .merge (some 1) (some 3), .pop (some 1), .pop (some 1)]
      (total sizeStep allowance (fun _ => 0)
        [.new (some 1), .push (some 1) (5 : Int) (some 2), .new (some 3),
          .push (some 3) 4 (some 4), .push (some 3) 6 (some 5), .merge (some 1) (some 3),
          .pop (some 1), .pop (some 1)]) :=
  comparisons_amortized _ _ (by decide +kernel)

def Op.isPush : Op α → Bool
  | .push _ _ _ => true
  | _ => false

def Op.isPop : Op α → Bool
  | .pop _ => true
  | _ => false

def Op.isMerge : Op α → Bool
  | .merge _ _ => true
  | _ => false

/-- What `LegalView` says of the call alone. -/
def Op.Apart : Op α → Prop
  | .merge (some h1) (some h2) => h1 ≠ h2
  | _ => True

noncomputable def logarithmic (n : Nat) (ops : List (Op α)) : ℝ :=
  (ops.countP Op.isPush + ops.countP Op.isMerge) * Forest.mergeBound n +
    ops.countP Op.isPop * Forest.popBound n

theorem sum_sizeStep_le (sizes : Addr → Nat) {op : Op α} (hapart : op.Apart) :
    ∑ h, sizeStep sizes op h ≤ ∑ h, sizes h + if op.isPush then 1 else 0 := by
  unfold sizeStep
  split
  · next g =>
      have hupdate := sum_update_add id sizes g 0
      simp only [id, Op.isPush, Bool.false_eq_true, if_false] at hupdate ⊢
      omega
  · next g data a =>
      have hupdate := sum_update_add id sizes g (sizes g + 1)
      simp only [id, Op.isPush, if_true] at hupdate ⊢
      omega
  · next g =>
      have hupdate := sum_update_add id sizes g (sizes g - 1)
      simp only [id, Op.isPush, Bool.false_eq_true, if_false] at hupdate ⊢
      omega
  · next g₁ g₂ =>
      have hupdate₁ := sum_update_add id sizes g₁ (sizes g₁ + sizes g₂)
      have hupdate₂ := sum_update_add id
        (Function.update sizes g₁ (sizes g₁ + sizes g₂)) g₂ 0
      have hne : g₁ ≠ g₂ := hapart
      simp only [id, Op.isPush, Bool.false_eq_true, if_false,
        Function.update_of_ne (Ne.symm hne)] at hupdate₁ hupdate₂ ⊢
      omega
  · next g =>
      have hupdate := sum_update_add id sizes g 0
      simp only [id, Op.isPush, Bool.false_eq_true, if_false] at hupdate ⊢
      omega
  · exact Nat.le_add_right _ _

theorem allowance_le_logarithmic {sizes : Addr → Nat} {n : Nat} {op : Op α}
    (hsum : ∑ h, sizes h + (if op.isPush then 1 else 0) ≤ n) (hapart : op.Apart) :
    allowance sizes op ≤ logarithmic n [op] := by
  have hle : ∀ g, sizes g ≤ ∑ h, sizes h := fun g =>
    Finset.single_le_sum (fun _ _ => Nat.zero_le _) (Finset.mem_univ g)
  have hmergeBound := Forest.mergeBound_nonneg n
  have hpopBound := Forest.popBound_nonneg n
  unfold allowance
  split
  · next g data answer =>
      have hg := hle g
      simp only [Op.isPush, if_true] at hsum
      have hbound := Forest.mergeBound_mono (by omega : sizes g + 1 ≤ n)
      simpa [logarithmic, Op.isPush, Op.isMerge, Op.isPop] using hbound
  · next g =>
      have hg := hle g
      have hbound := Forest.popBound_mono (by omega : sizes g ≤ n)
      simpa [logarithmic, Op.isPush, Op.isMerge, Op.isPop] using hbound
  · next g₁ g₂ =>
      have hpair : sizes g₁ + sizes g₂ ≤ ∑ h, sizes h := by
        have hne : g₁ ≠ g₂ := hapart
        rw [← Finset.sum_pair hne]
        exact Finset.sum_le_sum_of_subset (Finset.subset_univ _)
      have hbound := Forest.mergeBound_mono (by omega : sizes g₁ + sizes g₂ ≤ n)
      simpa [logarithmic, Op.isPush, Op.isMerge, Op.isPop] using hbound
  · unfold logarithmic
    positivity

theorem logarithmic_cons (n : Nat) (op : Op α) (ops : List (Op α)) :
    logarithmic n (op :: ops) = logarithmic n [op] + logarithmic n ops := by
  have hcons : op :: ops = [op] ++ ops := rfl
  simp only [logarithmic, hcons, List.countP_append, Nat.cast_add]
  ring

theorem total_allowance_le {n : Nat} {sizes : Addr → Nat}
    (hsum : ∑ h, sizes h + ops.countP Op.isPush ≤ n) (hapart : ∀ op ∈ ops, op.Apart) :
    total sizeStep allowance sizes ops ≤ logarithmic n ops := by
  induction ops generalizing sizes with
  | nil => simp [logarithmic]
  | cons op ops ih =>
      have hop := hapart op List.mem_cons_self
      rw [List.countP_cons] at hsum
      have hnext := sum_sizeStep_le sizes hop
      rw [total_cons, logarithmic_cons]
      refine add_le_add (allowance_le_logarithmic (by omega) hop) (ih (by omega) ?_)
      exact fun op' hop' => hapart op' (List.mem_cons_of_mem _ hop')

/-- In a run with `n` pushes, a push and a merge make `1 + log n` comparator
calls and a pop makes `2 log n`, on average. -/
theorem comparisons_logarithmic (cmp : α → α → Int) (ops : List (Op α))
    (hlegal : AlongM (Counted.step cmp) (fun run op => Legal run.memory op)
      Counted.init ops) :
    RunsWithin cmp ops (logarithmic (ops.countP Op.isPush) ops) := by
  obtain ⟨run, hrun, hcalls⟩ := calls_eq_total hlegal
  have halong := along_legalView hlegal
  have hapart : ∀ op ∈ ops, Op.Apart op := by
    refine forall_of_along (along_imp (fun views op hop => ?_) halong)
    unfold Op.Apart
    split
    · exact hop.1
    · trivial
  refine ⟨run, hrun, ?_⟩
  rw [hcalls]
  exact (total_viewCost_le halong).trans (total_allowance_le (by simp) hapart)

theorem comparisons_logarithmic_merge :
    RunsWithin (fun x y : Int => x - y)
      [.new (some 1), .push (some 1) 5 (some 2), .new (some 3), .push (some 3) 4 (some 4),
        .push (some 3) 6 (some 5), .merge (some 1) (some 3), .pop (some 1), .pop (some 1)]
      (logarithmic (3 : Nat)
        [.new (some 1), .push (some 1) (5 : Int) (some 2), .new (some 3),
          .push (some 3) 4 (some 4), .push (some 3) 6 (some 5), .merge (some 1) (some 3),
          .pop (some 1), .pop (some 1)]) :=
  comparisons_logarithmic _ _ (by decide +kernel)

end Runs

end Doctrina.Heap
