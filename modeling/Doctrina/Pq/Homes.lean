import Doctrina.Heap.Multisets
import Doctrina.Pq.Basic
/-!
# Which heap serves which queue

Every live queue has a heap of its own.  A call on the queue is the call of the
same name on that heap, and leaves the heaps of the other queues alone.
-/

namespace Doctrina.Pq

open Doctrina.Lib.PairingHeap
open Doctrina.Heap (Views Refines viewStep viewItem bag bag_merge bag_pop)

variable {α : Type}

/-- The items that each queue was built from; none where there is no queue, or
none that has all of them. -/
abbrev Built (α : Type) : Type := Addr → Option (Multiset α)

/-- Every queue has a heap of its own, with the items it was built from. -/
structure Homes (queues : Store PriorityQueue) (views : Views α) (built : Built α) : Prop where
  home : ∀ q object, queues.lookup q = some object →
    ∃ g t, object = ⟨some g⟩ ∧ views g = some t ∧ ∀ items, built q = some items → bag t = items
  live : ∀ q items, built q = some items → q ∈ queues
  separate : ∀ q q' object, queues.lookup q = some object →
    queues.lookup q' = some object → q = q'

section Homes

variable {queues : Store PriorityQueue} {views : Views α} {built : Built α} {q g : Addr}

namespace Homes

variable (h : Homes queues views built)

include h

theorem of_live (hlive : q ∈ queues) : ∃ g t, queues.lookup q = some ⟨some g⟩ ∧
    views g = some t ∧ ∀ items, built q = some items → bag t = items := by
  obtain ⟨object, hobject⟩ := Finmap.mem_iff.mp hlive
  obtain ⟨g, t, rfl, hg, hitems⟩ := h.home q object hobject
  exact ⟨g, t, hobject, hg, hitems⟩

theorem ne_of_ne (hq : queues.lookup q = some ⟨some g⟩) {q' g' : Addr}
    (hq' : queues.lookup q' = some ⟨some g'⟩) (hne : q' ≠ q) : g' ≠ g := by
  intro heq
  subst heq
  exact hne (h.separate q' q _ hq' hq)

theorem update (hq : queues.lookup q = some ⟨some g⟩) (t : Heap.Shape α)
    {contents : Option (Multiset α)} (hcontents : ∀ items, contents = some items → bag t = items) :
    Homes queues (Function.update views g (some t)) (Function.update built q contents) where
  home q' object hobject := by
    obtain ⟨g', t', rfl, hg', hitems⟩ := h.home q' object hobject
    by_cases heq : q' = q
    · subst heq
      rw [hq, Option.some.injEq, PriorityQueue.mk.injEq, Option.some.injEq] at hobject
      refine ⟨g', t, rfl, ?_, ?_⟩
      · rw [hobject, Function.update_self]
      · rwa [Function.update_self]
    · refine ⟨g', t', rfl, ?_, ?_⟩
      · rw [Function.update_of_ne (h.ne_of_ne hq hobject heq), hg']
      · rwa [Function.update_of_ne heq]
  live q' items hitems := by
    by_cases heq : q' = q
    · rw [heq]
      exact Finmap.mem_of_lookup_eq_some hq
    · rw [Function.update_of_ne heq] at hitems
      exact h.live q' items hitems
  separate := h.separate

theorem ne_of_dead (hg : views g = none) {object : PriorityQueue}
    (hobject : queues.lookup q = some object) : object ≠ ⟨some g⟩ := by
  intro heq
  obtain ⟨g', t, hobject', hg', _⟩ := h.home q object hobject
  rw [hobject', PriorityQueue.mk.injEq, Option.some.injEq] at heq
  rw [heq, hg] at hg'
  cases hg'

theorem add (q : Addr) (hg : views g = none) :
    Homes (queues.insert q ⟨some g⟩) (Function.update views g (some .nil))
      (Function.update built q (some 0)) where
  home q' object hobject := by
    rw [Store.lookup_insert_eq] at hobject
    by_cases heq : q' = q
    · rw [if_pos heq, Option.some.injEq] at hobject
      refine ⟨g, .nil, hobject.symm, Function.update_self .., fun items hitems => ?_⟩
      rw [heq, Function.update_self, Option.some.injEq] at hitems
      rw [← hitems]
      rfl
    · rw [if_neg heq] at hobject
      obtain ⟨g', t, rfl, hg', hitems⟩ := h.home q' object hobject
      have hne : g' ≠ g := by
        intro heq'
        rw [heq', hg] at hg'
        cases hg'
      refine ⟨g', t, rfl, ?_, ?_⟩
      · rw [Function.update_of_ne hne, hg']
      · rwa [Function.update_of_ne heq]
  live q' items hitems := by
    rw [Finmap.mem_insert]
    by_cases heq : q' = q
    · exact .inl heq
    · rw [Function.update_of_ne heq] at hitems
      exact .inr (h.live q' items hitems)
  separate := by
    intro q' q'' object hobject' hobject''
    rw [Store.lookup_insert_eq] at hobject' hobject''
    by_cases heq' : q' = q
    · by_cases heq'' : q'' = q
      · rw [heq', heq'']
      · rw [if_pos heq', Option.some.injEq] at hobject'
        rw [if_neg heq''] at hobject''
        exact absurd hobject'.symm (h.ne_of_dead hg hobject'')
    · by_cases heq'' : q'' = q
      · rw [if_neg heq'] at hobject'
        rw [if_pos heq'', Option.some.injEq] at hobject''
        exact absurd hobject''.symm (h.ne_of_dead hg hobject')
      · rw [if_neg heq'] at hobject'
        rw [if_neg heq''] at hobject''
        exact h.separate q' q'' object hobject' hobject''

theorem drop (hq : queues.lookup q = some ⟨some g⟩) :
    Homes (queues.erase q) (Function.update views g none) (Function.update built q none) where
  home q' object hobject := by
    rw [Store.lookup_erase_eq] at hobject
    by_cases heq : q' = q
    · rw [if_pos heq] at hobject
      cases hobject
    · rw [if_neg heq] at hobject
      obtain ⟨g', t, rfl, hg', hitems⟩ := h.home q' object hobject
      refine ⟨g', t, rfl, ?_, ?_⟩
      · rw [Function.update_of_ne (h.ne_of_ne hq hobject heq), hg']
      · rwa [Function.update_of_ne heq]
  live q' items hitems := by
    by_cases heq : q' = q
    · rw [heq, Function.update_self] at hitems
      cases hitems
    · rw [Function.update_of_ne heq] at hitems
      exact Finmap.mem_erase.mpr ⟨heq, h.live q' items hitems⟩
  separate q' q'' object hobject' hobject'' := by
    rw [Store.lookup_erase_eq] at hobject' hobject''
    by_cases heq' : q' = q
    · rw [if_pos heq'] at hobject'
      cases hobject'
    · by_cases heq'' : q'' = q
      · rw [if_pos heq''] at hobject''
        cases hobject''
      · rw [if_neg heq'] at hobject'
        rw [if_neg heq''] at hobject''
        exact h.separate q' q'' object hobject' hobject''

end Homes

end Homes

end Doctrina.Pq
