import Doctrina.Heap.Views
/-!
# The calls of heap.c refine the operations on pairing heaps

One lemma for each call: on a memory that refines a view it returns without a
fault, what it returns is what the view says, and the memory afterwards
refines the view afterwards.
-/

namespace Doctrina.Heap

open Doctrina.Lib.PairingHeap

variable {α : Type} {self : Memory α} {cmp : α → α → Int} {views : Views α}

theorem refines_empty : Refines (⟨∅, ∅⟩ : Memory α) cmp fun _ => none where
  heap _ := rfl
  rep := nofun
  single := nofun
  nodup := nofun
  disjoint := nofun
  owned _ ha := absurd ha Finmap.notMem_empty

namespace Refines

variable (h : Refines self cmp views)

include h

theorem heapNew {a : Addr} (hfresh : self.Fresh (some a)) :
    ∃ self', Heap.heapNew self cmp (some a) = .ok (self', a) ∧
      Refines self' cmp (viewStep cmp views (.new (some a))) := by
  refine ⟨_, rfl, ?_⟩
  apply h.replace a []
  · intro g
    rw [Store.lookup_insert_eq, viewStep, Function.update_apply]
    split
    · rfl
    · exact h.heap g
  · exact fun _ _ => rfl
  · intro g t hg
    by_cases heq : g = a
    · rw [heq, viewStep, Function.update_self, Option.some.injEq] at hg
      subst hg
      exact .inr ⟨heq, rep_nil, Forest.single_nil, List.nodup_nil, by simp⟩
    · rw [viewStep, Function.update_of_ne heq] at hg
      exact .inl ⟨hg, fun _ _ => List.not_mem_nil⟩
  · simp
  · intro g t hg
    have hne : g ≠ a := by
      intro heq
      exact hfresh.1 (heq ▸ h.live_of_view hg)
    exact .inl (by rwa [viewStep, Function.update_of_ne hne])

theorem heapPush {g : Addr} (hlive : self.Live (some g)) (data : α) {a : Addr}
    (hfresh : self.Fresh (some a)) :
    ∃ self', Heap.heapPush self (some g) data (some a) = .ok (self', 0) ∧
      Refines self' cmp (viewStep cmp views (.push (some g) data (some a))) := by
  obtain ⟨t, hg, hheap⟩ := h.view_of_live hlive
  have hat : a ∉ Shape.addrs t := fun hmem => hfresh.2 (h.node_live hg hmem)
  have hold : Rep (self.nodes.insert a ⟨data, none, none⟩) t := (h.rep g t hg).insert hat _
  have hnew : Rep (self.nodes.insert a ⟨data, none, none⟩) (Forest.single (a, data)) :=
    ⟨Finmap.lookup_insert _, rep_nil, rep_nil⟩
  have hnodup : (Shape.addrs t ++ Shape.addrs (Forest.single (a, data))).Nodup := by
    apply List.nodup_append.mpr
    refine ⟨h.nodup g t hg, List.nodup_singleton a, fun b hb c hc heq => ?_⟩
    rw [Shape.addrs, Forest.elements_single, List.map_singleton, List.mem_singleton] at hc
    rw [heq, hc] at hb
    exact hat hb
  have hperm := addrs_merge_perm cmp (h.single g t hg) (Forest.single_single (a, data))
  obtain ⟨nodes', hmerge, hrep, hframe⟩ := mergeNodes_rep cmp hold hnew hnodup
  refine ⟨⟨self.heaps.insert g ⟨Shape.root (Forest.merge (Le cmp) t
    (Forest.single (a, data))), cmp⟩, nodes'⟩, ?_, ?_⟩
  · have hroot : Shape.root (Forest.single (a, data)) = some a := rfl
    rw [hroot] at hmerge
    simp only [Heap.heapPush, Store.load_eq hheap, hmerge, Store.modify_eq hheap, bind,
      Except.bind]
    rfl
  · rw [viewStep, hg, Option.map_some]
    apply h.update hg [a]
    · intro b hb
      rw [List.mem_singleton.mp hb]
      exact hfresh.2
    · intro b hb
      have hba : b ≠ a := fun heq => hb (by simp [heq])
      rw [hframe.lookup b hb, Store.lookup_insert_eq, if_neg hba]
    · exact hrep
    · exact Forest.merge_single (h.single g t hg) (Forest.single_single (a, data))
    · exact hperm.nodup_iff.mpr hnodup
    · exact fun b hb => hperm.mem_iff.mp hb
    · exact fun b hb _ => hperm.mem_iff.mpr hb

theorem heapPoll {g : Addr} (hlive : self.Live (some g)) :
    Heap.heapPoll self (some g) = .ok (viewItem views (some g)) := by
  obtain ⟨t, hg, hheap⟩ := h.view_of_live hlive
  have hrep := h.rep g t hg
  simp only [Heap.heapPoll, Store.load_eq hheap, bind, Except.bind, viewItem, Option.bind_some, hg]
  cases t with
  | nil => rfl
  | node x c s =>
      simp only [root_node, Store.load_eq hrep.1]
      rfl

theorem heapPop {g : Addr} (hlive : self.Live (some g)) :
    ∃ self', Heap.heapPop self (some g) = .ok (self', viewItem views (some g)) ∧
      Refines self' cmp (viewStep cmp views (.pop (some g))) := by
  obtain ⟨t, hg, hheap⟩ := h.view_of_live hlive
  have hrep := h.rep g t hg
  cases t with
  | nil =>
      refine ⟨self, ?_, ?_⟩
      · simp only [Heap.heapPop, Store.load_eq hheap, bind, Except.bind, viewItem,
          Option.bind_some, hg]
        rfl
      · have hsame : viewStep cmp views (.pop (some g)) = views := by
          rw [viewStep, hg]
          exact (Function.update_eq_self_iff ..).mpr hg.symm
        rwa [hsame]
  | node x c s =>
      have hs : s = .nil := h.single g _ hg
      subst hs
      have hnodup := h.nodup g _ hg
      rw [addrs_node, addrs_nil, List.append_nil, List.nodup_cons] at hnodup
      have hfuel : (Shape.addrs c).length < self.nodes.fuel :=
        Store.length_lt_fuel hnodup.2 hrep.2.1.live
      obtain ⟨nodes', hpairs, hrep', hframe⟩ :=
        mergePairs_rep cmp hrep.2.1 hnodup.2 hfuel
      have hroot' : nodes'.lookup x.1 = some ⟨x.2, Shape.root c, none⟩ := by
        rw [hframe.lookup x.1 hnodup.1]
        exact hrep.1
      have hperm := addrs_mergePairs_perm cmp c
      refine ⟨⟨self.heaps.insert g ⟨Shape.root (Forest.mergePairs (Le cmp) c), cmp⟩,
        nodes'.erase x.1⟩, ?_, ?_⟩
      · simp only [Heap.heapPop, Store.load_eq hheap, root_node, Store.load_eq hrep.1,
          hpairs, Store.modify_eq hheap, Store.free_eq hroot', bind, Except.bind, viewItem,
          Option.bind_some, hg]
        rfl
      · rw [viewStep, hg, Option.map_some, Forest.pop]
        apply h.update hg []
        · simp
        · intro b hb
          rw [addrs_node, addrs_nil, List.append_nil, List.append_nil, List.mem_cons,
            not_or] at hb
          rw [Store.lookup_erase_eq, if_neg hb.1, hframe.lookup b hb.2]
        · apply hrep'.congr
          intro b hb
          rw [Store.lookup_erase_eq, if_neg]
          intro heq
          exact hnodup.1 (hperm.mem_iff.mp (heq ▸ hb))
        · exact Forest.mergePairs_single c
        · exact hperm.nodup_iff.mpr hnodup.2
        · intro b hb
          simp [hperm.mem_iff.mp hb]
        · intro b hb hblive
          have hbx : b ≠ x.1 := (Finmap.mem_erase.mp hblive).1
          apply hperm.mem_iff.mpr
          simpa [hbx] using hb

theorem heapMerge {g₁ g₂ : Addr} (hlive₁ : self.Live (some g₁)) (hlive₂ : self.Live (some g₂))
    (hne : g₁ ≠ g₂) :
    ∃ self', Heap.heapMerge self (some g₁) (some g₂) = .ok (self', some g₁) ∧
      Refines self' cmp (viewStep cmp views (.merge (some g₁) (some g₂))) := by
  obtain ⟨t₁, hg₁, hheap₁⟩ := h.view_of_live hlive₁
  obtain ⟨t₂, hg₂, hheap₂⟩ := h.view_of_live hlive₂
  have hnodup : (Shape.addrs t₁ ++ Shape.addrs t₂).Nodup := by
    apply List.nodup_append.mpr
    refine ⟨h.nodup g₁ t₁ hg₁, h.nodup g₂ t₂ hg₂, fun a ha b hb heq => ?_⟩
    subst heq
    exact hne (h.disjoint g₁ g₂ t₁ t₂ a hg₁ hg₂ ha hb)
  have hperm := addrs_merge_perm cmp (h.single g₁ t₁ hg₁) (h.single g₂ t₂ hg₂)
  obtain ⟨nodes', hmerge, hrep, hframe⟩ :=
    mergeNodes_rep cmp (h.rep g₁ t₁ hg₁) (h.rep g₂ t₂ hg₂) hnodup
  have hfree : (self.heaps.insert g₁ ⟨Shape.root (Forest.merge (Le cmp) t₁ t₂), cmp⟩).lookup
      g₂ = some ⟨Shape.root t₂, cmp⟩ := by
    rw [Store.lookup_insert_eq, if_neg (Ne.symm hne)]
    exact hheap₂
  refine ⟨⟨(self.heaps.insert g₁ ⟨Shape.root (Forest.merge (Le cmp) t₁ t₂), cmp⟩).erase g₂,
    nodes'⟩, ?_, ?_⟩
  · simp only [Heap.heapMerge, Store.load_eq hheap₁, Store.load_eq hheap₂, hmerge,
      Store.modify_eq hheap₁, HeapT.setRoot, Store.free_eq hfree, bind, Except.bind]
    rfl
  · rw [viewStep, hg₁, hg₂, Option.bind_some, Option.map_some]
    apply h.replace g₁ (Shape.addrs t₁ ++ Shape.addrs t₂)
    · intro g
      rw [Store.lookup_erase_eq, Store.lookup_insert_eq, Function.update_apply,
        Function.update_apply]
      split
      · rfl
      · split
        · rfl
        · exact h.heap g
    · exact hframe.lookup
    · intro g t hg
      by_cases hg₂' : g = g₂
      · rw [hg₂', Function.update_self] at hg
        cases hg
      · rw [Function.update_of_ne hg₂'] at hg
        by_cases hg₁' : g = g₁
        · rw [hg₁', Function.update_self, Option.some.injEq] at hg
          subst hg
          exact .inr ⟨hg₁', hrep, Forest.merge_single (h.single g₁ t₁ hg₁)
            (h.single g₂ t₂ hg₂), hperm.nodup_iff.mpr hnodup, fun a ha => hperm.mem_iff.mp ha⟩
        · rw [Function.update_of_ne hg₁'] at hg
          refine .inl ⟨hg, fun a ha hmem => ?_⟩
          cases List.mem_append.mp hmem with
          | inl ha₁ => exact hg₁' (h.disjoint g g₁ t t₁ a hg hg₁ ha ha₁)
          | inr ha₂ => exact hg₂' (h.disjoint g g₂ t t₂ a hg hg₂ ha ha₂)
    · intro a ha _
      refine ⟨Forest.merge (Le cmp) t₁ t₂, ?_, hperm.mem_iff.mpr ha⟩
      rw [Function.update_of_ne hne, Function.update_self]
    · intro g t hg
      by_cases hg₂' : g = g₂
      · rw [hg₂', hg₂, Option.some.injEq] at hg
        subst hg
        exact .inr fun a ha => List.mem_append_right _ ha
      · by_cases hg₁' : g = g₁
        · rw [hg₁', hg₁, Option.some.injEq] at hg
          subst hg
          exact .inr fun a ha => List.mem_append_left _ ha
        · exact .inl (by rwa [Function.update_of_ne hg₂', Function.update_of_ne hg₁'])

theorem heapDestroy {g : Addr} (hlive : self.Live (some g)) :
    ∃ self', Heap.heapDestroy self (some g) = .ok self' ∧
      Refines self' cmp (viewStep cmp views (.destroy (some g))) ∧
      ∀ t, views g = some t → ∀ a, a ∈ self'.nodes ↔ a ∈ self.nodes ∧ a ∉ Shape.addrs t := by
  obtain ⟨t, hg, hheap⟩ := h.view_of_live hlive
  have hfuel : (Shape.addrs t).length < self.nodes.fuel :=
    Store.length_lt_fuel (h.nodup g t hg) (h.rep g t hg).live
  obtain ⟨nodes', hdestroy, hlookup⟩ :=
    destroyNode_rep (h.rep g t hg) (h.nodup g t hg) hfuel
  have hfree : (self.heaps.insert g ⟨none, cmp⟩).lookup g = some ⟨none, cmp⟩ :=
    Finmap.lookup_insert _
  refine ⟨⟨(self.heaps.insert g ⟨none, cmp⟩).erase g, nodes'⟩, ?_, ?_, ?_⟩
  · simp only [Heap.heapDestroy, Store.load_eq hheap, hdestroy, Store.modify_eq hheap,
      HeapT.setRoot, Store.free_eq hfree, bind, Except.bind]
    rfl
  · apply h.replace g (Shape.addrs t)
    · intro g'
      rw [Store.lookup_erase_eq, Store.lookup_insert_eq, viewStep, Function.update_apply]
      split
      · rfl
      · exact h.heap g'
    · intro a ha
      rw [hlookup, if_neg ha]
    · intro g' t' hg'
      have hne : g' ≠ g := by
        intro heq
        rw [viewStep, heq, Function.update_self] at hg'
        cases hg'
      rw [viewStep, Function.update_of_ne hne] at hg'
      exact .inl ⟨hg', fun a ha hmem => hne (h.disjoint g' g t' t a hg' hg ha hmem)⟩
    · intro a ha halive
      obtain ⟨object, hobject⟩ := Finmap.mem_iff.mp halive
      rw [hlookup, if_pos ha] at hobject
      cases hobject
    · intro g' t' hg'
      by_cases heq : g' = g
      · rw [heq, hg, Option.some.injEq] at hg'
        subst hg'
        exact .inr fun a ha => ha
      · exact .inl (by rwa [viewStep, Function.update_of_ne heq])
  · intro t' ht' a
    rw [hg, Option.some.injEq] at ht'
    subst ht'
    rw [Finmap.mem_iff, Finmap.mem_iff, hlookup]
    by_cases ha : a ∈ Shape.addrs t
    · simp [ha]
    · simp [ha]

theorem call {op : Op α} (hlegal : Legal self op) :
    ∃ self', Heap.call cmp self op = .ok (self', viewResult views op) ∧
      Refines self' cmp (viewStep cmp views op) := by
  cases op with
  | new answer =>
      cases answer with
      | none => exact hlegal.elim
      | some a =>
          obtain ⟨self', hcall, hrefines⟩ := h.heapNew hlegal
          exact ⟨self', by rw [Heap.call, hcall]; rfl, hrefines⟩
  | push heap data answer =>
      obtain ⟨hlive, hfresh⟩ := hlegal
      cases heap with
      | none => exact hlive.elim
      | some g =>
          cases answer with
          | none => exact hfresh.elim
          | some a =>
              obtain ⟨self', hcall, hrefines⟩ := h.heapPush hlive data hfresh
              exact ⟨self', by rw [Heap.call, hcall]; rfl, hrefines⟩
  | poll heap =>
      cases heap with
      | none => exact ⟨self, rfl, h⟩
      | some g =>
          have hcall := h.heapPoll (of_null_or hlegal)
          exact ⟨self, by rw [Heap.call, hcall]; rfl, h⟩
  | pop heap =>
      cases heap with
      | none => exact ⟨self, rfl, h⟩
      | some g =>
          obtain ⟨self', hcall, hrefines⟩ := h.heapPop (of_null_or hlegal)
          exact ⟨self', by rw [Heap.call, hcall]; rfl, hrefines⟩
  | merge h1 h2 =>
      cases h1 with
      | none => exact ⟨self, rfl, h⟩
      | some g₁ =>
          cases h2 with
          | none => exact ⟨self, rfl, h⟩
          | some g₂ =>
              obtain ⟨hlive₁, hlive₂, hne⟩ := hlegal
              have hne' : g₁ ≠ g₂ := fun heq => of_null_or hne (congrArg some heq)
              obtain ⟨self', hcall, hrefines⟩ := h.heapMerge (of_null_or hlive₁)
                (of_null_or hlive₂) hne'
              exact ⟨self', by rw [Heap.call, hcall]; rfl, hrefines⟩
  | destroy heap =>
      cases heap with
      | none => exact ⟨self, rfl, h⟩
      | some g =>
          obtain ⟨self', hcall, hrefines, _⟩ := h.heapDestroy (of_null_or hlegal)
          exact ⟨self', by rw [Heap.call, hcall]; rfl, hrefines⟩

end Refines

end Doctrina.Heap
