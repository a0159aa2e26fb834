import Doctrina.Heap.Multisets
import Doctrina.Heap.Ownership
import Doctrina.Pq.Basic
/-!
# pq.c as a front of heap.c

Live queues and live heaps belong together in pairs.  What a run of calls does
to the heaps behind the queues is a run of heap.c, call by call and with the
same results, whatever the comparator, so that all that is known of heaps holds
of queues; and no heap or node outlives its queue.
-/

namespace Doctrina.Pq

open Doctrina.Lib.Execution Doctrina.Lib.PairingHeap
open Doctrina.Heap (Views Refines viewStep viewItem viewResult)

variable {α : Type}

def heapOf (queues : Store PriorityQueue) (pq : Option Addr) : Option Addr :=
  pq.bind fun q => (queues.lookup q).bind PriorityQueue.heap

/-- The call of heap.c that a call of pq.c comes down to; a push to NULL comes
down to none. -/
def asHeapOp (queues : Store PriorityQueue) : Op α → Option (Heap.Op α)
  | .new _ heapAnswer => some (.new heapAnswer)
  | .destroy pq => some (.destroy (heapOf queues pq))
  | .push none _ _ => none
  | .push (some q) data answer => some (.push (heapOf queues (some q)) data answer)
  | .peek pq => some (.poll (heapOf queues pq))
  | .pop pq => some (.pop (heapOf queues pq))
  | .merge pq1 pq2 => some (.merge (heapOf queues pq1) (heapOf queues pq2))

def asHeapResult (queues : Store PriorityQueue) : Result α → Heap.Result α
  | .status value => .status value
  | .queue pq => .heap (heapOf queues pq)
  | .item data => .item data
  | .void => .void

/-- Every queue has a heap of its own, and every heap a queue. -/
structure Paired (queues : Store PriorityQueue) (views : Views α) : Prop where
  home : ∀ q object, queues.lookup q = some object → ∃ g, object = ⟨some g⟩ ∧ views g ≠ none
  separate : ∀ q q' object, queues.lookup q = some object →
    queues.lookup q' = some object → q = q'
  onto : ∀ g, views g ≠ none → ∃ q, queues.lookup q = some ⟨some g⟩

section Paired

variable {queues : Store PriorityQueue} {views views' : Views α} {q g : Addr}

theorem paired_empty : Paired (∅ : Store PriorityQueue) (fun _ => none : Views α) where
  home q object hobject := by
    rw [Finmap.lookup_empty] at hobject
    cases hobject
  separate q q' object hobject := by
    rw [Finmap.lookup_empty] at hobject
    cases hobject
  onto g hg := absurd rfl hg

theorem heapOf_eq (hq : queues.lookup q = some ⟨some g⟩) : heapOf queues (some q) = some g := by
  rw [heapOf, Option.bind_some, hq, Option.bind_some]

namespace Paired

variable (h : Paired queues views)

include h

theorem of_live (hlive : q ∈ queues) :
    ∃ g, queues.lookup q = some ⟨some g⟩ ∧ views g ≠ none := by
  obtain ⟨object, hobject⟩ := Finmap.mem_iff.mp hlive
  obtain ⟨g, rfl, hg⟩ := h.home q object hobject
  exact ⟨g, hobject, hg⟩

theorem congr (hdomain : ∀ g, views' g = none ↔ views g = none) : Paired queues views' where
  home q object hobject := by
    obtain ⟨g, heq, hg⟩ := h.home q object hobject
    exact ⟨g, heq, (hdomain g).not.mpr hg⟩
  separate := h.separate
  onto g hg := h.onto g ((hdomain g).not.mp hg)

theorem add (hq : q ∉ queues) (hg : views g = none) (t : Heap.Shape α) :
    Paired (queues.insert q ⟨some g⟩) (Function.update views g (some t)) where
  home q' object hobject := by
    rw [Store.lookup_insert_eq] at hobject
    split at hobject
    · refine ⟨g, (Option.some.inj hobject).symm, ?_⟩
      rw [Function.update_self]
      exact Option.some_ne_none t
    · obtain ⟨g', heq, hg'⟩ := h.home q' object hobject
      have hne : g' ≠ g := fun heq' => hg' (heq' ▸ hg)
      exact ⟨g', heq, by rwa [Function.update_of_ne hne]⟩
  separate q' q'' object hobject hobject' := by
    have hnew : ∀ r, r ≠ q → (queues.insert q ⟨some g⟩).lookup r = some ⟨some g⟩ → False := by
      intro r hr hlookup
      rw [Store.lookup_insert_eq, if_neg hr] at hlookup
      obtain ⟨g', heq, hg'⟩ := h.home r _ hlookup
      rw [PriorityQueue.mk.injEq, Option.some.injEq] at heq
      exact hg' (heq ▸ hg)
    by_cases hq' : q' = q
    · by_cases hq'' : q'' = q
      · rw [hq', hq'']
      · rw [hq', Store.lookup_insert_eq, if_pos rfl] at hobject
        exact (hnew q'' hq'' (hobject'.trans hobject.symm)).elim
    · by_cases hq'' : q'' = q
      · rw [hq'', Store.lookup_insert_eq, if_pos rfl] at hobject'
        exact (hnew q' hq' (hobject.trans hobject'.symm)).elim
      · rw [Store.lookup_insert_eq, if_neg hq'] at hobject
        rw [Store.lookup_insert_eq, if_neg hq''] at hobject'
        exact h.separate q' q'' object hobject hobject'
  onto g' hg' := by
    by_cases heq : g' = g
    · exact ⟨q, by rw [heq, Store.lookup_insert_eq, if_pos rfl]⟩
    · rw [Function.update_of_ne heq] at hg'
      obtain ⟨q', hq'⟩ := h.onto g' hg'
      have hne : q' ≠ q := fun heq' => hq (heq' ▸ Finmap.mem_of_lookup_eq_some hq')
      exact ⟨q', by rw [Store.lookup_insert_eq, if_neg hne, hq']⟩

theorem drop (hq : queues.lookup q = some ⟨some g⟩) :
    Paired (queues.erase q) (Function.update views g none) where
  home q' object hobject := by
    rw [Store.lookup_erase_eq] at hobject
    split at hobject
    · cases hobject
    · next hne =>
        obtain ⟨g', rfl, hg'⟩ := h.home q' object hobject
        have hne' : g' ≠ g := by
          rintro rfl
          exact hne (h.separate q' q _ hobject hq)
        exact ⟨g', rfl, by rwa [Function.update_of_ne hne']⟩
  separate q' q'' object hobject hobject' := by
    rw [Store.lookup_erase_eq] at hobject hobject'
    split at hobject
    · cases hobject
    · split at hobject'
      · cases hobject'
      · exact h.separate q' q'' object hobject hobject'
  onto g' hg' := by
    by_cases heq : g' = g
    · rw [heq, Function.update_self] at hg'
      exact absurd rfl hg'
    · rw [Function.update_of_ne heq] at hg'
      obtain ⟨q', hq'⟩ := h.onto g' hg'
      refine ⟨q', ?_⟩
      rw [Store.lookup_erase_eq, if_neg, hq']
      rintro rfl
      rw [hq, Option.some.injEq, PriorityQueue.mk.injEq, Option.some.injEq] at hq'
      exact heq hq'.symm

end Paired

end Paired

/-- The call of pq.c has done and returned what the call of heap.c does. -/
inductive Behind (cmp : α → α → Int) (memory : Memory α) (op : Op α) :
    Memory α → Result α → Prop
  | heapCall {memory' : Memory α} {result : Result α} (hop : Heap.Op α)
      (htranslate : asHeapOp memory.queues op = some hop)
      (hlegal : Heap.Legal memory.heaps hop)
      (hcall : Heap.call cmp memory.heaps hop =
        .ok (memory'.heaps, asHeapResult memory'.queues result)) :
      Behind cmp memory op memory' result
  | nullPush (htranslate : asHeapOp memory.queues op = none) :
      Behind cmp memory op memory (.status (-1))

section Calls

variable {cmp : α → α → Int} {memory : Memory α} {views : Views α}

/-- A call that returns, and is one of heap.c. -/
def Mirrors (cmp : α → α → Int) (memory : Memory α) (op : Op α) : Prop :=
  ∃ memory' result views', call cmp memory op = .ok (memory', result) ∧
    Refines memory'.heaps cmp views' ∧ Paired memory'.queues views' ∧
      Behind cmp memory op memory' result

variable (hr : Refines memory.heaps cmp views) (h : Paired memory.queues views)

include hr in
theorem view_eq_none {g : Addr} (hdead : g ∉ memory.heaps.heaps) : views g = none := by
  cases hg : views g with
  | none => rfl
  | some t => exact absurd (hr.live_of_view hg) hdead

include hr h

theorem heap_live {q : Addr} (hlive : memory.Live (some q)) :
    ∃ g t, memory.queues.lookup q = some ⟨some g⟩ ∧ views g = some t ∧
      memory.heaps.Live (some g) := by
  obtain ⟨g, hq, hg⟩ := h.of_live hlive
  obtain ⟨t, ht⟩ := Option.ne_none_iff_exists'.mp hg
  exact ⟨g, t, hq, ht, hr.live_of_view ht⟩

theorem heapOf_live {pq : Option Addr} (hlegal : pq = none ∨ memory.Live pq) :
    heapOf memory.queues pq = none ∨ memory.heaps.Live (heapOf memory.queues pq) := by
  cases pq with
  | none => exact .inl rfl
  | some q =>
      obtain ⟨g, t, hq, hg, hheap⟩ := heap_live hr h (Heap.of_null_or hlegal)
      rw [heapOf_eq hq]
      exact .inr hheap

theorem mirrors_new {answer heapAnswer : Option Addr}
    (hlegal : Legal memory (.new answer heapAnswer)) :
    Mirrors cmp memory (.new answer heapAnswer) := by
  obtain ⟨hfresh, hheap, hne⟩ := hlegal
  cases answer with
  | none => exact hfresh.elim
  | some q =>
      cases heapAnswer with
      | none => exact hheap.elim
      | some g =>
          have hfresh' : memory.heaps.Fresh (some g) := ⟨hheap.2.1, hheap.2.2⟩
          obtain ⟨heaps, hcall, hrefines⟩ := hr.heapNew hfresh'
          have hlookup : (memory.queues.insert q ⟨none⟩).lookup q = some ⟨none⟩ :=
            Finmap.lookup_insert _
          refine ⟨⟨memory.queues.insert q ⟨some g⟩, heaps⟩, .queue (some q), _, ?_, hrefines,
            h.add hfresh.1 (view_eq_none hr hheap.2.1) .nil, .heapCall _ rfl hfresh' ?_⟩
          · simp only [call, pqNew, hcall, bind, Except.bind, Store.modify_eq hlookup,
              PriorityQueue.setHeap, Finmap.insert_insert]
            rfl
          · rw [Heap.call, hcall, asHeapResult, heapOf_eq (Finmap.lookup_insert _)]
            rfl

theorem mirrors_push {pq answer : Option Addr} {data : α}
    (hlegal : Legal memory (.push pq data answer)) : Mirrors cmp memory (.push pq data answer) := by
  cases pq with
  | none => exact ⟨memory, .status (-1), views, rfl, hr, h, .nullPush rfl⟩
  | some q =>
      obtain ⟨hlive, hfresh⟩ := Heap.of_null_or hlegal
      obtain ⟨g, t, hq, hg, hheap⟩ := heap_live hr h hlive
      cases answer with
      | none => exact hfresh.elim
      | some a =>
          obtain ⟨heaps, hcall, hrefines⟩ := hr.heapPush hheap data hfresh.2
          have hbehind : Heap.Legal memory.heaps (.push (heapOf memory.queues (some q)) data
              (some a)) := by
            rw [heapOf_eq hq]
            exact ⟨hheap, hfresh.2⟩
          refine ⟨⟨memory.queues, heaps⟩, .status 0, _, ?_, hrefines, h.congr fun g' => ?_,
            .heapCall _ rfl hbehind ?_⟩
          · simp only [call, pqPush, Store.load_eq hq, hcall, bind, Except.bind]
            rfl
          · rw [viewStep, Function.update_apply]
            split
            · next heq => rw [heq, Option.map_eq_none_iff]
            · rfl
          · rw [heapOf_eq hq, Heap.call, hcall]
            rfl

theorem mirrors_peek {pq : Option Addr} (hlegal : Legal memory (.peek pq)) :
    Mirrors cmp memory (.peek pq) := by
  cases pq with
  | none =>
      exact ⟨memory, .item none, views, rfl, hr, h, .heapCall _ rfl (.inl rfl) rfl⟩
  | some q =>
      obtain ⟨g, t, hq, hg, hheap⟩ := heap_live hr h (Heap.of_null_or hlegal)
      have hcall := hr.heapPoll hheap
      refine ⟨memory, .item (viewItem views (some g)), views, ?_, hr, h,
        .heapCall _ rfl (heapOf_live hr h hlegal) ?_⟩
      · simp only [call, pqPeek, Store.load_eq hq, hcall, bind, Except.bind]
        rfl
      · rw [heapOf_eq hq, Heap.call, hcall]
        rfl

theorem mirrors_pop {pq : Option Addr} (hlegal : Legal memory (.pop pq)) :
    Mirrors cmp memory (.pop pq) := by
  cases pq with
  | none =>
      exact ⟨memory, .item none, views, rfl, hr, h, .heapCall _ rfl (.inl rfl) rfl⟩
  | some q =>
      obtain ⟨g, t, hq, hg, hheap⟩ := heap_live hr h (Heap.of_null_or hlegal)
      obtain ⟨heaps, hcall, hrefines⟩ := hr.heapPop hheap
      refine ⟨⟨memory.queues, heaps⟩, .item (viewItem views (some g)), _, ?_, hrefines,
        h.congr fun g' => ?_, .heapCall _ rfl (heapOf_live hr h hlegal) ?_⟩
      · simp only [call, pqPop, Store.load_eq hq, hcall, bind, Except.bind]
        rfl
      · rw [viewStep, Function.update_apply]
        split
        · next heq => rw [heq, Option.map_eq_none_iff]
        · rfl
      · rw [heapOf_eq hq, Heap.call, hcall]
        rfl

theorem mirrors_destroy {pq : Option Addr} (hlegal : Legal memory (.destroy pq)) :
    Mirrors cmp memory (.destroy pq) := by
  cases pq with
  | none =>
      exact ⟨memory, .void, views, rfl, hr, h, .heapCall _ rfl (.inl rfl) rfl⟩
  | some q =>
      obtain ⟨g, t, hq, hg, hheap⟩ := heap_live hr h (Heap.of_null_or hlegal)
      obtain ⟨heaps, hcall, hrefines, _⟩ := hr.heapDestroy hheap
      refine ⟨⟨memory.queues.erase q, heaps⟩, .void, _, ?_, hrefines, h.drop hq,
        .heapCall _ rfl (heapOf_live hr h hlegal) ?_⟩
      · simp only [call, pqDestroy, Store.load_eq hq, Store.free_eq hq, hcall, bind, Except.bind]
        rfl
      · rw [heapOf_eq hq, Heap.call, hcall]
        rfl

theorem mirrors_merge {pq1 pq2 : Option Addr} (hlegal : Legal memory (.merge pq1 pq2)) :
    Mirrors cmp memory (.merge pq1 pq2) := by
  obtain ⟨hlive₁, hlive₂, hne⟩ := hlegal
  have hbehind₁ := heapOf_live hr h hlive₁
  have hbehind₂ := heapOf_live hr h hlive₂
  cases pq1 with
  | none =>
      have hmerge : Heap.Legal memory.heaps (.merge none (heapOf memory.queues pq2)) :=
        ⟨.inl rfl, hbehind₂, .inl rfl⟩
      exact ⟨memory, .queue pq2, views, rfl, hr, h, .heapCall _ rfl hmerge rfl⟩
  | some q₁ =>
      obtain ⟨g₁, t₁, hq₁, hg₁, hheap₁⟩ := heap_live hr h (Heap.of_null_or hlive₁)
      cases pq2 with
      | none =>
          have hmerge : Heap.Legal memory.heaps (.merge (heapOf memory.queues (some q₁)) none) := by
            refine ⟨hbehind₁, .inl rfl, .inr ?_⟩
            rw [heapOf_eq hq₁]
            exact Option.some_ne_none g₁
          refine ⟨memory, .queue (some q₁), views, rfl, hr, h, .heapCall _ rfl hmerge ?_⟩
          rw [asHeapResult, heapOf_eq hq₁]
          rfl
      | some q₂ =>
          obtain ⟨g₂, t₂, hq₂, hg₂, hheap₂⟩ := heap_live hr h (Heap.of_null_or hlive₂)
          have hqueues : q₁ ≠ q₂ := fun heq => Heap.of_null_or hne (congrArg some heq)
          have hheaps : g₁ ≠ g₂ := by
            rintro rfl
            exact hqueues (h.separate q₁ q₂ _ hq₁ hq₂)
          have hmerge : Heap.Legal memory.heaps
              (.merge (heapOf memory.queues (some q₁)) (heapOf memory.queues (some q₂))) := by
            refine ⟨hbehind₁, hbehind₂, .inr ?_⟩
            rw [heapOf_eq hq₁, heapOf_eq hq₂]
            exact fun heq => hheaps (Option.some.inj heq)
          obtain ⟨heaps, hcall, hrefines⟩ := hr.heapMerge hheap₁ hheap₂ hheaps
          have hstay : memory.queues.modify (some q₁) (PriorityQueue.setHeap (some g₁)) =
              .ok memory.queues := by
            rw [Store.modify_eq hq₁]
            exact congrArg _ (Store.insert_eq_self hq₁)
          have hkept : (memory.queues.erase q₂).lookup q₁ = some ⟨some g₁⟩ := by
            rw [Store.lookup_erase_eq, if_neg hqueues, hq₁]
          refine ⟨⟨memory.queues.erase q₂, heaps⟩, .queue (some q₁), _, ?_, hrefines, ?_,
            .heapCall _ rfl hmerge ?_⟩
          · simp only [call, pqMerge, Store.load_eq hq₁, Store.load_eq hq₂, Store.free_eq hq₂,
              hcall, hstay, bind, Except.bind]
            rfl
          · refine Paired.drop (h.congr fun g' => ?_) hq₂
            rw [Function.update_apply, hg₁, hg₂]
            split
            · next heq => simp [heq, hg₁]
            · rfl
          · rw [heapOf_eq hq₁, heapOf_eq hq₂, Heap.call, hcall, asHeapResult, heapOf_eq hkept]
            rfl

theorem mirrors {op : Op α} (hlegal : Legal memory op) : Mirrors cmp memory op := by
  cases op with
  | new answer heapAnswer => exact mirrors_new hr h hlegal
  | destroy pq => exact mirrors_destroy hr h hlegal
  | push pq data answer => exact mirrors_push hr h hlegal
  | peek pq => exact mirrors_peek hr h hlegal
  | pop pq => exact mirrors_pop hr h hlegal
  | merge pq1 pq2 => exact mirrors_merge hr h hlegal

end Calls

/-! ## Runs -/

/-- A memory, and the calls of heap.c that led to its heaps, with the results that
pq.c made of theirs. -/
structure Mirror (α : Type) where
  memory : Memory α
  trace : List (Heap.Op α × Heap.Result α)

def Mirror.init : Mirror α := ⟨⟨∅, ⟨∅, ∅⟩⟩, []⟩

def Mirror.step (cmp : α → α → Int) (mirror : Mirror α) (op : Op α) :
    Except Fault (Mirror α) :=
  (call cmp mirror.memory op).map fun (memory, result) =>
    ⟨memory, mirror.trace ++ ((asHeapOp mirror.memory.queues op).map fun hop =>
      (hop, asHeapResult memory.queues result)).toList⟩

/-- The trace is a legal run of heap.c, with these results and these heaps. -/
structure RunsAsHeaps (cmp : α → α → Int) (mirror : Mirror α) : Prop where
  legal : AlongM (Heap.Run.step cmp) (fun run hop => Heap.Legal run.memory hop) Heap.Run.init
    (mirror.trace.map Prod.fst)
  run : (mirror.trace.map Prod.fst).foldlM (Heap.Run.step cmp) Heap.Run.init =
    .ok ⟨mirror.memory.heaps, mirror.trace⟩

/-- The live heaps are those of the live queues, one for each, and the live nodes
are those that are reached from them. -/
structure Accounted (memory : Memory α) : Prop where
  heaps : ∀ g, g ∈ memory.heaps.heaps ↔ ∃ q, memory.queues.lookup q = some ⟨some g⟩
  separate : ∀ q q' object, memory.queues.lookup q = some object →
    memory.queues.lookup q' = some object → q = q'
  nodes : ∀ a, a ∈ memory.heaps.nodes ↔ ∃ q g heap r, memory.queues.lookup q = some ⟨some g⟩ ∧
    memory.heaps.heaps.lookup g = some heap ∧ heap.root = some r ∧
      Heap.Reaches memory.heaps.nodes r a
  empty : memory.queues = ∅ → memory.heaps.heaps = ∅ ∧ memory.heaps.nodes = ∅

theorem Paired.accounted {cmp : α → α → Int} {memory : Memory α} {views : Views α}
    (h : Paired memory.queues views) (hr : Refines memory.heaps cmp views) :
    Accounted memory := by
  have hheaps : ∀ g, g ∈ memory.heaps.heaps ↔
      ∃ q, memory.queues.lookup q = some ⟨some g⟩ := by
    intro g
    constructor
    · intro hlive
      obtain ⟨t, hg, _⟩ := hr.view_of_live hlive
      exact h.onto g (by rw [hg]; exact Option.some_ne_none t)
    · rintro ⟨q, hq⟩
      obtain ⟨g', heq, hg'⟩ := h.home q _ hq
      rw [PriorityQueue.mk.injEq, Option.some.injEq] at heq
      obtain ⟨t, ht⟩ := Option.ne_none_iff_exists'.mp hg'
      exact heq ▸ hr.live_of_view ht
  have hnodes : ∀ a, a ∈ memory.heaps.nodes ↔ ∃ q g heap r,
      memory.queues.lookup q = some ⟨some g⟩ ∧ memory.heaps.heaps.lookup g = some heap ∧
        heap.root = some r ∧ Heap.Reaches memory.heaps.nodes r a := by
    intro a
    rw [hr.mem_nodes_iff]
    constructor
    · rintro ⟨g, t, hg, ha⟩
      obtain ⟨q, hq⟩ := h.onto g (by rw [hg]; exact Option.some_ne_none t)
      obtain ⟨r, hroot, hreach⟩ := (hr.rep g t hg).reaches ha
      refine ⟨q, g, ⟨Heap.Shape.root t, cmp⟩, r, hq, ?_, hroot, hreach⟩
      rw [hr.heap g, hg, Option.map_some]
    · rintro ⟨q, g, heap, r, hq, hheap, hroot, hreach⟩
      obtain ⟨t, hg, hheap'⟩ := hr.view_of_live (Finmap.mem_of_lookup_eq_some hheap)
      rw [hheap, Option.some.injEq] at hheap'
      rw [hheap'] at hroot
      exact ⟨g, t, hg, (hr.rep g t hg).mem_of_reaches (Heap.root_mem hroot) hreach⟩
  refine ⟨hheaps, h.separate, hnodes, fun hempty => ⟨?_, ?_⟩⟩
  · apply Finmap.ext_lookup
    intro g
    rw [Finmap.lookup_empty, Finmap.lookup_eq_none, hheaps, hempty]
    rintro ⟨q, hq⟩
    rw [Finmap.lookup_empty] at hq
    cases hq
  · apply Finmap.ext_lookup
    intro a
    rw [Finmap.lookup_empty, Finmap.lookup_eq_none, hnodes, hempty]
    rintro ⟨q, g, heap, r, hq, _⟩
    rw [Finmap.lookup_empty] at hq
    cases hq

section Runs

variable (cmp : α → α → Int)

theorem RunsAsHeaps.snoc {cmp : α → α → Int} {mirror : Mirror α} (h : RunsAsHeaps cmp mirror)
    {memory' : Memory α} {hop : Heap.Op α} {hresult : Heap.Result α}
    (hlegal : Heap.Legal mirror.memory.heaps hop)
    (hcall : Heap.call cmp mirror.memory.heaps hop = .ok (memory'.heaps, hresult)) :
    RunsAsHeaps cmp ⟨memory', mirror.trace ++ [(hop, hresult)]⟩ := by
  have hstep : Heap.Run.step cmp ⟨mirror.memory.heaps, mirror.trace⟩ hop =
      .ok ⟨memory'.heaps, mirror.trace ++ [(hop, hresult)]⟩ := by
    rw [Heap.Run.step, hcall]
    rfl
  constructor
  · rw [List.map_append]
    refine alongM_append.mpr ⟨h.legal, fun run hrun => ?_⟩
    rw [h.run, Except.ok.injEq] at hrun
    rw [← hrun]
    exact (alongM_cons _ _ _).mpr ⟨hlegal, fun _ _ => trivial⟩
  · rw [List.map_append]
    exact foldlM_append_ok.mpr ⟨_, h.run, foldlM_cons_ok.mpr ⟨_, hstep, rfl⟩⟩

/-- What every state of a legal run is. -/
def Mirror.Stands (mirror : Mirror α) : Prop :=
  RunsAsHeaps cmp mirror ∧ ∃ views, Refines mirror.memory.heaps cmp views ∧
    Paired mirror.memory.queues views

theorem Mirror.Stands.step {cmp : α → α → Int} {mirror : Mirror α} (h : mirror.Stands cmp)
    {op : Op α} (hlegal : Legal mirror.memory op) :
    ∃ mirror', Mirror.step cmp mirror op = .ok mirror' ∧ mirror'.Stands cmp := by
  obtain ⟨hruns, views, hr, hpaired⟩ := h
  obtain ⟨memory', result, views', hcall, hr', hpaired', hbehind⟩ := mirrors hr hpaired hlegal
  refine ⟨_, by rw [Mirror.step, hcall]; rfl, ?_, views', hr', hpaired'⟩
  cases hbehind with
  | heapCall hop htranslate hlegal' hcall' =>
      rw [htranslate]
      exact hruns.snoc hlegal' hcall'
  | nullPush htranslate =>
      rw [htranslate]
      change RunsAsHeaps cmp ⟨mirror.memory, mirror.trace ++ []⟩
      rwa [List.append_nil]

theorem Mirror.stands_run {ops : List (Op α)}
    (hlegal : AlongM (Mirror.step cmp) (fun mirror op => Legal mirror.memory op) Mirror.init
      ops) : ∃ mirror, ops.foldlM (Mirror.step cmp) Mirror.init = .ok mirror ∧
        mirror.Stands cmp := by
  have hinit : (Mirror.init : Mirror α).Stands cmp :=
    ⟨⟨trivial, rfl⟩, _, Heap.refines_empty, paired_empty⟩
  exact progress_foldlM (fun _ _ h hop => h.step hop) hinit hlegal

/-- Every legal run of pq.c returns, and what it does to the heaps behind its
queues is a legal run of heap.c with the same results. -/
theorem queues_run_as_heaps {ops : List (Op α)}
    (hlegal : AlongM (Mirror.step cmp) (fun mirror op => Legal mirror.memory op) Mirror.init
      ops) : ∃ mirror, ops.foldlM (Mirror.step cmp) Mirror.init = .ok mirror ∧
        RunsAsHeaps cmp mirror := by
  obtain ⟨mirror, hrun, hstands⟩ := Mirror.stands_run cmp hlegal
  exact ⟨mirror, hrun, hstands.1⟩

/-- At the end of every legal run of pq.c heaps and nodes are live only for the
sake of live queues. -/
theorem queues_leak_nothing {ops : List (Op α)}
    (hlegal : AlongM (Mirror.step cmp) (fun mirror op => Legal mirror.memory op) Mirror.init
      ops) : ∃ mirror, ops.foldlM (Mirror.step cmp) Mirror.init = .ok mirror ∧
        Accounted mirror.memory := by
  obtain ⟨mirror, hrun, _, views, hr, hpaired⟩ := Mirror.stands_run cmp hlegal
  exact ⟨mirror, hrun, hpaired.accounted hr⟩

end Runs

/-- Two queues filled, merged and popped. -/
def mergeOps : List (Op Int) :=
  [.new (some 1) (some 2), .push (some 1) 5 (some 3), .new (some 4) (some 5),
    .push (some 4) 4 (some 6), .push none 0 none, .merge (some 1) (some 4), .pop (some 1),
    .peek (some 1), .destroy (some 1)]

theorem queues_run_as_heaps_merge :
    ∃ mirror, mergeOps.foldlM (Mirror.step fun x y => x - y) Mirror.init = .ok mirror ∧
      RunsAsHeaps (fun x y => x - y) mirror :=
  queues_run_as_heaps _ (by decide +kernel)

theorem queues_leak_nothing_merge :
    ∃ mirror, mergeOps.foldlM (Mirror.step fun x y => x - y) Mirror.init = .ok mirror ∧
      Accounted mirror.memory :=
  queues_leak_nothing _ (by decide +kernel)

end Doctrina.Pq
