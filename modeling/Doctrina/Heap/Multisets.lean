import Doctrina.Heap.Refinement
import Doctrina.Lib.Execution
import Mathlib.Data.Multiset.Basic
/-!
# Heaps as multisets of items

`Spec` says what the calls mean on the multisets that the heaps stand for.
For a total and transitive comparator every run of legal calls is a run of
`Spec`.
-/

namespace Doctrina.Heap

open Doctrina.Lib.Execution Doctrina.Lib.PairingHeap

variable {α : Type}

abbrev Bags (α : Type) : Type := Addr → Option (Multiset α)

/-- An item of the multiset that is before every other, NULL for the empty
multiset. -/
def Least (cmp : α → α → Int) (bag : Multiset α) : Option α → Prop
  | none => bag = 0
  | some x => x ∈ bag ∧ ∀ y ∈ bag, cmp x y ≤ 0

/-- What a call does to the multisets of the heaps, and what it returns. -/
inductive Spec (cmp : α → α → Int) (bags : Bags α) : Op α → Result α → Bags α → Prop
  | new (h : Addr) :
      Spec cmp bags (.new (some h)) (.heap (some h)) (Function.update bags h (some 0))
  | push (h : Addr) (bag : Multiset α) (data : α) (answer : Option Addr)
      (hbag : bags h = some bag) :
      Spec cmp bags (.push (some h) data answer) (.status 0)
        (Function.update bags h (some (data ::ₘ bag)))
  | pollNull : Spec cmp bags (.poll none) (.item none) bags
  | poll (h : Addr) (bag : Multiset α) (item : Option α) (hbag : bags h = some bag)
      (hleast : Least cmp bag item) : Spec cmp bags (.poll (some h)) (.item item) bags
  | popNull : Spec cmp bags (.pop none) (.item none) bags
  | popEmpty (h : Addr) (hbag : bags h = some 0) :
      Spec cmp bags (.pop (some h)) (.item none) bags
  | pop (h : Addr) (item : α) (rest : Multiset α) (hbag : bags h = some (item ::ₘ rest))
      (hleast : Least cmp (item ::ₘ rest) (some item)) :
      Spec cmp bags (.pop (some h)) (.item (some item))
        (Function.update bags h (some rest))
  | mergeNullLeft (h : Option Addr) : Spec cmp bags (.merge none h) (.heap h) bags
  | mergeNullRight (h : Addr) :
      Spec cmp bags (.merge (some h) none) (.heap (some h)) bags
  | merge (h₁ h₂ : Addr) (bag₁ bag₂ : Multiset α) (hbag₁ : bags h₁ = some bag₁)
      (hbag₂ : bags h₂ = some bag₂) :
      Spec cmp bags (.merge (some h₁) (some h₂)) (.heap (some h₁))
        (Function.update (Function.update bags h₁ (some (bag₁ + bag₂))) h₂ none)
  | destroyNull : Spec cmp bags (.destroy none) .void bags
  | destroy (h : Addr) (bag : Multiset α) (hbag : bags h = some bag) :
      Spec cmp bags (.destroy (some h)) .void (Function.update bags h none)

/-- Calls and their results, from no heap at all to the given multisets. -/
inductive SpecTrace (cmp : α → α → Int) : List (Op α × Result α) → Bags α → Prop
  | nil : SpecTrace cmp [] fun _ => none
  | snoc {trace : List (Op α × Result α)} {bags bags' : Bags α} {op : Op α}
      {result : Result α} (htrace : SpecTrace cmp trace bags)
      (hspec : Spec cmp bags op result bags') :
      SpecTrace cmp (trace ++ [(op, result)]) bags'

def bag (t : Shape α) : Multiset α := (t.elements.map Prod.snd : List α)

def bagsOf (views : Views α) : Bags α := fun h => (views h).map bag

theorem bagsOf_update (views : Views α) (h : Addr) (t : Option (Shape α)) :
    bagsOf (Function.update views h t) = Function.update (bagsOf views) h (t.map bag) := by
  funext g
  rw [bagsOf, Function.update_apply, Function.update_apply]
  split <;> rfl

section Order

variable {cmp : α → α → Int} {t u : Shape α}

theorem bag_merge (ht : t.Single) (hu : u.Single) :
    bag (Forest.merge (Le cmp) t u) = bag t + bag u := by
  rw [bag, bag, bag, Multiset.coe_add, ← List.map_append]
  exact Multiset.coe_eq_coe.mpr ((Forest.elements_merge ht hu).map _)

theorem bag_pop (cmp : α → α → Int) {x : Addr × α} (ht : t.Single) (htop : t.top = some x) :
    bag t = x.2 ::ₘ bag (Forest.pop (Le cmp) t) := by
  rw [bag, bag, Multiset.cons_coe]
  exact Multiset.coe_eq_coe.mpr ((Forest.elements_pop ht htop).map Prod.snd)

theorem bag_eq_zero_iff : bag t = 0 ↔ Shape.root t = none := by
  rw [bag, Multiset.coe_eq_zero, List.map_eq_nil_iff, ← Forest.top_eq_none_iff, Shape.root,
    Option.map_eq_none_iff]

variable (htotal : ∀ x y, cmp x y ≤ 0 ∨ cmp y x ≤ 0)
  (htrans : ∀ x y z, cmp x y ≤ 0 → cmp y z ≤ 0 → cmp x z ≤ 0)

include htotal in
theorem least_top (ht : t.Single) (hordered : t.Ordered (Le cmp)) :
    Least cmp (bag t) (t.top.map Prod.snd) := by
  cases htop : t.top with
  | none =>
      rw [Option.map_none, Least, bag, Forest.top_eq_none_iff.mp htop]
      rfl
  | some x =>
      rw [Option.map_some, Least, bag]
      refine ⟨List.mem_map_of_mem (Forest.top_mem htop), fun y hy => ?_⟩
      obtain ⟨z, hz, rfl⟩ := List.mem_map.mp hy
      exact hordered.top_le (fun x y => htotal x.2 y.2) ht htop z hz

variable {self : Memory α} {views : Views α}

theorem ordered_update (hordered : ∀ g t, views g = some t → t.Ordered (Le cmp)) (h : Addr)
    {u : Option (Shape α)} (hu : ∀ t, u = some t → t.Ordered (Le cmp)) :
    ∀ g t, Function.update views h u g = some t → t.Ordered (Le cmp) := by
  intro g t hg
  by_cases heq : g = h
  · rw [heq, Function.update_self] at hg
    exact hu t hg
  · rw [Function.update_of_ne heq] at hg
    exact hordered g t hg

include htotal htrans in
theorem ordered_viewStep (h : Refines self cmp views)
    (hordered : ∀ g t, views g = some t → t.Ordered (Le cmp)) (op : Op α) :
    ∀ g t, viewStep cmp views op g = some t → t.Ordered (Le cmp) := by
  have htotal' : ∀ x y : Addr × α, Le cmp x y ∨ Le cmp y x := fun x y => htotal x.2 y.2
  have htrans' : ∀ x y z : Addr × α, Le cmp x y → Le cmp y z → Le cmp x z :=
    fun x y z => htrans x.2 y.2 z.2
  cases op with
  | new answer =>
      cases answer with
      | none => exact hordered
      | some g =>
          apply ordered_update hordered
          intro t ht
          cases ht
          exact Forest.ordered_nil
  | push heap data answer =>
      cases heap with
      | none => exact hordered
      | some g =>
          cases answer with
          | none => exact hordered
          | some a =>
              apply ordered_update hordered
              intro t ht
              obtain ⟨t, hg, rfl⟩ := Option.map_eq_some_iff.mp ht
              exact (hordered g t hg).merge htotal' htrans' (Forest.ordered_single _)
                (h.single g t hg) (Forest.single_single _)
  | poll heap => exact hordered
  | pop heap =>
      cases heap with
      | none => exact hordered
      | some g =>
          apply ordered_update hordered
          intro t ht
          obtain ⟨t, hg, rfl⟩ := Option.map_eq_some_iff.mp ht
          exact (hordered g t hg).pop htotal' htrans'
  | merge h1 h2 =>
      cases h1 with
      | none => exact hordered
      | some g₁ =>
          cases h2 with
          | none => exact hordered
          | some g₂ =>
              refine ordered_update (ordered_update hordered g₁ fun t ht => ?_) g₂ nofun
              obtain ⟨t₁, hg₁, hmap⟩ := Option.bind_eq_some_iff.mp ht
              obtain ⟨t₂, hg₂, rfl⟩ := Option.map_eq_some_iff.mp hmap
              exact (hordered g₁ t₁ hg₁).merge htotal' htrans' (hordered g₂ t₂ hg₂)
                (h.single g₁ t₁ hg₁) (h.single g₂ t₂ hg₂)
  | destroy heap =>
      cases heap with
      | none => exact hordered
      | some g => exact ordered_update hordered g nofun

theorem bagsOf_some {g : Addr} {t : Shape α} (hg : views g = some t) :
    bagsOf views g = some (bag t) := by
  rw [bagsOf, hg, Option.map_some]

include htotal in
theorem spec_poll (h : Refines self cmp views)
    (hordered : ∀ g t, views g = some t → t.Ordered (Le cmp)) {g : Addr}
    (hlive : self.Live (some g)) :
    ∃ bag, bagsOf views g = some bag ∧ Least cmp bag (viewItem views (some g)) := by
  obtain ⟨t, hg, _⟩ := h.view_of_live hlive
  refine ⟨bag t, bagsOf_some hg, ?_⟩
  rw [viewItem, Option.bind_some, hg, Option.bind_some]
  exact least_top htotal (h.single g t hg) (hordered g t hg)

include htotal in
theorem spec_pop (h : Refines self cmp views)
    (hordered : ∀ g t, views g = some t → t.Ordered (Le cmp)) {g : Addr}
    (hlive : self.Live (some g)) :
    Spec cmp (bagsOf views) (.pop (some g)) (.item (viewItem views (some g)))
      (bagsOf (viewStep cmp views (.pop (some g)))) := by
  obtain ⟨t, hg, _⟩ := h.view_of_live hlive
  have hsingle := h.single g t hg
  have hleast := least_top htotal hsingle (hordered g t hg)
  rw [viewStep, hg, Option.map_some, bagsOf_update, Option.map_some, viewItem,
    Option.bind_some, hg, Option.bind_some]
  cases htop : t.top with
  | none =>
      have ht : t = .nil := by
        cases t with
        | nil => rfl
        | node x c s => cases htop
      subst ht
      have hbag : bagsOf views g = some 0 := bagsOf_some hg
      have hsame : Function.update (bagsOf views) g (some (bag (Forest.pop (Le cmp) .nil))) =
          bagsOf views := (Function.update_eq_self_iff ..).mpr hbag.symm
      rw [hsame]
      exact .popEmpty g hbag
  | some x =>
      have hbag := bag_pop cmp hsingle htop
      rw [htop, Option.map_some, hbag] at hleast
      exact .pop g x.2 _ ((bagsOf_some hg).trans (congrArg some hbag)) hleast

include htotal in
theorem spec_viewStep (h : Refines self cmp views)
    (hordered : ∀ g t, views g = some t → t.Ordered (Le cmp)) {op : Op α}
    (hlegal : Legal self op) :
    Spec cmp (bagsOf views) op (viewResult views op) (bagsOf (viewStep cmp views op)) := by
  cases op with
  | new answer =>
      cases answer with
      | none => exact hlegal.elim
      | some a =>
          rw [viewStep, bagsOf_update]
          exact .new a
  | push heap data answer =>
      obtain ⟨hlive, hfresh⟩ := hlegal
      cases heap with
      | none => exact hlive.elim
      | some g =>
          cases answer with
          | none => exact hfresh.elim
          | some a =>
              obtain ⟨t, hg, _⟩ := h.view_of_live hlive
              have hbag : bag (Forest.merge (Le cmp) t (Forest.single (a, data))) =
                  data ::ₘ bag t := by
                rw [bag_merge (h.single g t hg) (Forest.single_single _), add_comm]
                rfl
              rw [viewStep, hg, Option.map_some, bagsOf_update, Option.map_some, hbag]
              exact .push g _ data _ (bagsOf_some hg)
  | poll heap =>
      cases heap with
      | none => exact .pollNull
      | some g =>
          obtain ⟨bag, hbag, hleast⟩ := spec_poll htotal h hordered (of_null_or hlegal)
          exact .poll g bag _ hbag hleast
  | pop heap =>
      cases heap with
      | none => exact .popNull
      | some g => exact spec_pop htotal h hordered (of_null_or hlegal)
  | merge h1 h2 =>
      cases h1 with
      | none => exact .mergeNullLeft h2
      | some g₁ =>
          cases h2 with
          | none => exact .mergeNullRight g₁
          | some g₂ =>
              obtain ⟨hlive₁, hlive₂, _⟩ := hlegal
              obtain ⟨t₁, hg₁, _⟩ := h.view_of_live (of_null_or hlive₁)
              obtain ⟨t₂, hg₂, _⟩ := h.view_of_live (of_null_or hlive₂)
              rw [viewStep, hg₁, hg₂, Option.bind_some, Option.map_some, bagsOf_update,
                bagsOf_update, Option.map_some, Option.map_none,
                bag_merge (h.single g₁ t₁ hg₁) (h.single g₂ t₂ hg₂)]
              exact .merge g₁ g₂ _ _ (bagsOf_some hg₁) (bagsOf_some hg₂)
  | destroy heap =>
      cases heap with
      | none => exact .destroyNull
      | some g =>
          obtain ⟨t, hg, _⟩ := h.view_of_live (of_null_or hlegal)
          rw [viewStep, bagsOf_update]
          exact .destroy g _ (bagsOf_some hg)

end Order

/-! ## Runs -/

/-- A memory and the calls that led to it, each with its result. -/
structure Run (α : Type) where
  memory : Memory α
  trace : List (Op α × Result α)

def Run.init : Run α := ⟨⟨∅, ∅⟩, []⟩

def Run.step (cmp : α → α → Int) (run : Run α) (op : Op α) : Except Fault (Run α) :=
  (call cmp run.memory op).map fun (memory, result) => ⟨memory, run.trace ++ [(op, result)]⟩

/-- The live heaps are those with a multiset.  A heap is linked up of the items
of its multiset, it has no root exactly if it is empty, `heapPoll` returns a
least item of it, and `heapPop` would return the same. -/
structure Agrees (cmp : α → α → Int) (memory : Memory α) (bags : Bags α) : Prop where
  live : ∀ h, h ∈ memory.heaps ↔ ∃ bag, bags h = some bag
  contents : ∀ h items, bags h = some items → ∃ heap t, memory.heaps.lookup h = some heap ∧
    heap.root = Shape.root t ∧ Rep memory.nodes t ∧ bag t = items
  root : ∀ h items heap, bags h = some items → memory.heaps.lookup h = some heap →
    (heap.root = none ↔ items = 0)
  poll : ∀ h items, bags h = some items → ∃ item, heapPoll memory (some h) = .ok item ∧
    Least cmp items item ∧ ∃ memory', heapPop memory (some h) = .ok (memory', item)

/-- The run returns from every call, and the calls, their results and the
memory at the end are those of the multisets. -/
def RunsAsMultisets (cmp : α → α → Int) (ops : List (Op α)) : Prop :=
  ∃ run bags, ops.foldlM (Run.step cmp) Run.init = .ok run ∧ run.trace.map Prod.fst = ops ∧
    SpecTrace cmp run.trace bags ∧ Agrees cmp run.memory bags

theorem trace_foldlM {cmp : α → α → Int} {ops : List (Op α)} {run run' : Run α}
    (hrun : ops.foldlM (Run.step cmp) run = .ok run') :
    run'.trace.map Prod.fst = run.trace.map Prod.fst ++ ops := by
  induction ops generalizing run with
  | nil =>
      cases hrun
      rw [List.append_nil]
  | cons op ops ih =>
      obtain ⟨next, hnext, hrest⟩ := foldlM_cons_ok.mp hrun
      obtain ⟨_, _, rfl⟩ := Except.map_eq_ok hnext
      rw [ih hrest, List.map_append, List.append_assoc]
      rfl

section Runs

variable {cmp : α → α → Int} (htotal : ∀ x y, cmp x y ≤ 0 ∨ cmp y x ≤ 0)
  (htrans : ∀ x y z, cmp x y ≤ 0 → cmp y z ≤ 0 → cmp x z ≤ 0)

include htotal in
theorem Refines.agrees {memory : Memory α} {views : Views α} (h : Refines memory cmp views)
    (hordered : ∀ g t, views g = some t → t.Ordered (Le cmp)) :
    Agrees cmp memory (bagsOf views) := by
  have hview : ∀ g items, bagsOf views g = some items →
      ∃ t, views g = some t ∧ bag t = items := fun g items hbag =>
    Option.map_eq_some_iff.mp hbag
  have hlookup : ∀ g t, views g = some t →
      memory.heaps.lookup g = some ⟨Shape.root t, cmp⟩ := by
    intro g t hg
    rw [h.heap g, hg, Option.map_some]
  refine ⟨fun g => ⟨fun hlive => ?_, fun ⟨items, hbag⟩ => ?_⟩, fun g items hbag => ?_,
    fun g items heap hbag hheap => ?_, fun g items hbag => ?_⟩
  · obtain ⟨t, hg, _⟩ := h.view_of_live hlive
    exact ⟨bag t, bagsOf_some hg⟩
  · obtain ⟨t, hg, _⟩ := hview g items hbag
    exact h.live_of_view hg
  · obtain ⟨t, hg, hitems⟩ := hview g items hbag
    exact ⟨_, t, hlookup g t hg, rfl, h.rep g t hg, hitems⟩
  · obtain ⟨t, hg, hitems⟩ := hview g items hbag
    rw [hlookup g t hg, Option.some.injEq] at hheap
    rw [← hheap, ← hitems]
    exact bag_eq_zero_iff.symm
  · obtain ⟨t, hg, _⟩ := hview g items hbag
    have hlive : memory.Live (some g) := h.live_of_view hg
    obtain ⟨items', hbag', hleast⟩ := spec_poll htotal h hordered hlive
    rw [hbag, Option.some.injEq] at hbag'
    obtain ⟨memory', hpop, _⟩ := h.heapPop hlive
    exact ⟨_, h.heapPoll hlive, hbag' ▸ hleast, memory', hpop⟩

include htotal htrans in
/-- Heaps with one total and transitive comparator behave as multisets of
items through every run of legal calls. -/
theorem heaps_run_as_multisets (ops : List (Op α))
    (hlegal : AlongM (Run.step cmp) (fun run op => Legal run.memory op) Run.init ops) :
    RunsAsMultisets cmp ops := by
  let Inv : Run α → Prop := fun run => ∃ views, Refines run.memory cmp views ∧
    (∀ g t, views g = some t → t.Ordered (Le cmp)) ∧ SpecTrace cmp run.trace (bagsOf views)
  have hinit : Inv Run.init := ⟨fun _ => none, refines_empty, nofun, .nil⟩
  have hstep : ∀ run op, Inv run → Legal run.memory op →
      ∃ run', Run.step cmp run op = .ok run' ∧ Inv run' := by
    intro run op hinv hop
    obtain ⟨views, hrefines, hordered, htrace⟩ := hinv
    obtain ⟨memory', hcall, hrefines'⟩ := hrefines.call hop
    refine ⟨⟨memory', run.trace ++ [(op, viewResult views op)]⟩, ?_,
      viewStep cmp views op, hrefines', ?_, ?_⟩
    · rw [Run.step, hcall]
      rfl
    · exact ordered_viewStep htotal htrans hrefines hordered op
    · exact htrace.snoc (spec_viewStep htotal hrefines hordered hop)
  obtain ⟨run, hrun, views, hrefines, hordered, htrace⟩ :=
    progress_foldlM hstep hinit hlegal
  exact ⟨run, bagsOf views, hrun, trace_foldlM hrun, htrace, hrefines.agrees htotal hordered⟩

end Runs

theorem heaps_run_as_multisets_merge :
    RunsAsMultisets (fun x y : Int => x - y)
      [.new (some 1), .push (some 1) 5 (some 2), .new (some 3), .push (some 3) 4 (some 4),
        .push (some 3) 6 (some 5), .merge (some 1) (some 3), .merge (some 1) none,
        .poll (some 1), .pop (some 1), .pop (some 1), .pop (some 1), .pop (some 1)] :=
  heaps_run_as_multisets (by omega) (by omega) _ (by decide +kernel)

end Doctrina.Heap
