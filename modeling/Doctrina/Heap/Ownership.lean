import Doctrina.Heap.Refinement
import Doctrina.Lib.Execution
import Mathlib.Tactic.Tauto
/-!
# Which nodes belong to which heap

A node belongs to the heap it was pushed to, moves when that heap is merged
into another, and stops to belong to any when it is popped or its heap is
destroyed.  In every run of legal calls the nodes linked to the root of a heap
are exactly those that belong to it, each reached once.
-/

namespace Doctrina.Heap

open Doctrina.Lib.Execution Doctrina.Lib.PairingHeap

variable {α : Type}

/-- The heap a node belongs to after a call. -/
def ownerStep (memory : Memory α) (owner : Addr → Option Addr) :
    Op α → Addr → Option Addr
  | .push (some h) _ (some node), a => if a = node then some h else owner a
  | .pop (some h), a =>
      if (memory.heaps.lookup h).bind HeapT.root = some a then none else owner a
  | .merge (some h1) (some h2), a => if owner a = some h2 then some h1 else owner a
  | .destroy (some h), a => if owner a = some h then none else owner a
  | _, a => owner a

structure OwnedRun (α : Type) where
  memory : Memory α
  owner : Addr → Option Addr

def OwnedRun.init : OwnedRun α := ⟨⟨∅, ∅⟩, fun _ => none⟩

def OwnedRun.step (cmp : α → α → Int) (run : OwnedRun α) (op : Op α) :
    Except Fault (OwnedRun α) :=
  (call cmp run.memory op).map fun (memory, _) =>
    ⟨memory, ownerStep run.memory run.owner op⟩

/-- The node at `b` is reached from the one at `a` through child and sibling
links. -/
inductive Reaches (nodes : Store (HeapNode α)) : Addr → Addr → Prop
  | refl (a : Addr) : Reaches nodes a a
  | child {a b c : Addr} {node : HeapNode α} (hnode : nodes.lookup a = some node)
      (hlink : node.child = some b) (hreach : Reaches nodes b c) : Reaches nodes a c
  | sibling {a b c : Addr} {node : HeapNode α} (hnode : nodes.lookup a = some node)
      (hlink : node.sibling = some b) (hreach : Reaches nodes b c) : Reaches nodes a c

/-- No heap and no live node points to the address. -/
def Unlinked (memory : Memory α) (a : Addr) : Prop :=
  (∀ h heap, memory.heaps.lookup h = some heap → heap.root ≠ some a) ∧
    ∀ b node, memory.nodes.lookup b = some node →
      node.child ≠ some a ∧ node.sibling ≠ some a

/-- Every live node belongs to a live heap; the links from the root of a heap
form a finite binary tree in which each node of the heap occurs once, and reach
no other; the root has no sibling; a pop frees the old root, to which nothing
points any more, and a destroy frees the nodes of its heap. -/
structure Partitioned (memory : Memory α) (owner : Addr → Option Addr) : Prop where
  owned : ∀ a, a ∈ memory.nodes ↔ ∃ h ∈ memory.heaps, owner a = some h
  tree : ∀ h heap, memory.heaps.lookup h = some heap →
    ∃ t, heap.root = Shape.root t ∧ Rep memory.nodes t ∧ (Shape.addrs t).Nodup ∧
      ∀ a, a ∈ Shape.addrs t ↔ owner a = some h
  reached : ∀ h heap, memory.heaps.lookup h = some heap → ∀ a,
    owner a = some h ↔ ∃ r, heap.root = some r ∧ Reaches memory.nodes r a
  rootSibling : ∀ h heap r node, memory.heaps.lookup h = some heap → heap.root = some r →
    memory.nodes.lookup r = some node → node.sibling = none
  pop : ∀ h heap r, memory.heaps.lookup h = some heap → heap.root = some r →
    ∃ memory' item, heapPop memory (some h) = .ok (memory', some item) ∧
      (∀ a, a ∈ memory'.nodes ↔ a ∈ memory.nodes ∧ a ≠ r) ∧ Unlinked memory' r
  destroy : ∀ h ∈ memory.heaps, ∃ memory', heapDestroy memory (some h) = .ok memory' ∧
    ∀ a, a ∈ memory'.nodes ↔ a ∈ memory.nodes ∧ owner a ≠ some h

section Links

variable {nodes : Store (HeapNode α)} {t : Shape α}

theorem root_mem {r : Addr} (hroot : Shape.root t = some r) : r ∈ Shape.addrs t := by
  obtain ⟨x, hx, rfl⟩ := Option.map_eq_some_iff.mp hroot
  exact List.mem_map_of_mem (Forest.top_mem hx)

theorem Rep.links (h : Rep nodes t) {a : Addr} (ha : a ∈ Shape.addrs t) :
    ∃ node, nodes.lookup a = some node ∧
      (∀ b, node.child = some b → b ∈ Shape.addrs t) ∧
      ∀ b, node.sibling = some b → b ∈ Shape.addrs t := by
  induction t with
  | nil => cases ha
  | node x c s ihc ihs =>
      rw [addrs_node, List.mem_cons, List.mem_append] at ha
      rcases ha with heq | hac | has
      · subst heq
        refine ⟨_, h.1, fun b hb => ?_, fun b hb => ?_⟩
        · simp [root_mem hb]
        · simp [root_mem hb]
      · obtain ⟨node, hnode, hchild, hsibling⟩ := ihc h.2.1 hac
        refine ⟨node, hnode, fun b hb => ?_, fun b hb => ?_⟩
        · simp [hchild b hb]
        · simp [hsibling b hb]
      · obtain ⟨node, hnode, hchild, hsibling⟩ := ihs h.2.2 has
        refine ⟨node, hnode, fun b hb => ?_, fun b hb => ?_⟩
        · simp [hchild b hb]
        · simp [hsibling b hb]

theorem Rep.mem_of_reaches (h : Rep nodes t) {a b : Addr} (ha : a ∈ Shape.addrs t)
    (hreach : Reaches nodes a b) : b ∈ Shape.addrs t := by
  induction hreach with
  | refl a => exact ha
  | child hnode hlink _ ih =>
      obtain ⟨node, hnode', hchild, _⟩ := h.links ha
      rw [hnode, Option.some.injEq] at hnode'
      subst hnode'
      exact ih (hchild _ hlink)
  | sibling hnode hlink _ ih =>
      obtain ⟨node, hnode', _, hsibling⟩ := h.links ha
      rw [hnode, Option.some.injEq] at hnode'
      subst hnode'
      exact ih (hsibling _ hlink)

theorem Rep.reaches (h : Rep nodes t) {b : Addr} (hb : b ∈ Shape.addrs t) :
    ∃ r, Shape.root t = some r ∧ Reaches nodes r b := by
  induction t with
  | nil => cases hb
  | node x c s ihc ihs =>
      refine ⟨x.1, rfl, ?_⟩
      rw [addrs_node, List.mem_cons, List.mem_append] at hb
      rcases hb with heq | hbc | hbs
      · subst heq
        exact .refl x.1
      · obtain ⟨r, hroot, hreach⟩ := ihc h.2.1 hbc
        exact .child h.1 hroot hreach
      · obtain ⟨r, hroot, hreach⟩ := ihs h.2.2 hbs
        exact .sibling h.1 hroot hreach

theorem Rep.reaches_iff (h : Rep nodes t) (b : Addr) :
    b ∈ Shape.addrs t ↔ ∃ r, Shape.root t = some r ∧ Reaches nodes r b := by
  constructor
  · exact h.reaches
  · intro hreach
    obtain ⟨r, hroot, hreach⟩ := hreach
    exact h.mem_of_reaches (root_mem hroot) hreach

end Links

/-- The node is in the forest of the heap. -/
def Owns (views : Views α) (h a : Addr) : Prop := ∃ t, views h = some t ∧ a ∈ Shape.addrs t

section Views

variable {memory : Memory α} {cmp : α → α → Int} {views : Views α}
  {owner : Addr → Option Addr}

theorem owns_update (g : Addr) (u : Option (Shape α)) (h a : Addr) :
    Owns (Function.update views g u) h a ↔
      if h = g then ∃ t, u = some t ∧ a ∈ Shape.addrs t else Owns views h a := by
  unfold Owns
  rw [Function.update_apply]
  split <;> rfl

theorem owns_iff {g : Addr} {t : Shape α} (hg : views g = some t) (a : Addr) :
    Owns views g a ↔ a ∈ Shape.addrs t := by
  simp [Owns, hg]

theorem Refines.mem_nodes_iff (h : Refines memory cmp views) (a : Addr) :
    a ∈ memory.nodes ↔ ∃ g, Owns views g a := by
  constructor
  · exact h.owned a
  · intro howns
    obtain ⟨g, t, hg, ha⟩ := howns
    exact h.node_live hg ha

theorem Refines.owns_unique (h : Refines memory cmp views) {g g' a : Addr}
    (hg : Owns views g a) (hg' : Owns views g' a) : g = g' := by
  obtain ⟨t, ht, ha⟩ := hg
  obtain ⟨t', ht', ha'⟩ := hg'
  exact h.disjoint g g' t t' a ht ht' ha ha'

theorem Refines.unlinked (h : Refines memory cmp views) {a : Addr} (ha : a ∉ memory.nodes) :
    Unlinked memory a := by
  constructor
  · intro g heap hheap hroot
    obtain ⟨t, hg, hheap'⟩ := h.view_of_live (Finmap.mem_of_lookup_eq_some hheap)
    rw [hheap, Option.some.injEq] at hheap'
    subst hheap'
    exact ha (h.node_live hg (root_mem hroot))
  · intro b node hnode
    obtain ⟨g, t, hg, hb⟩ := h.owned b (Finmap.mem_of_lookup_eq_some hnode)
    obtain ⟨node', hnode', hchild, hsibling⟩ := (h.rep g t hg).links hb
    rw [hnode, Option.some.injEq] at hnode'
    subst hnode'
    exact ⟨fun hlink => ha (h.node_live hg (hchild a hlink)),
      fun hlink => ha (h.node_live hg (hsibling a hlink))⟩

/-- `owner` names the heap whose forest a node is in. -/
def OwnerOf (views : Views α) (owner : Addr → Option Addr) : Prop :=
  ∀ a g, owner a = some g ↔ Owns views g a

theorem ownerOf_push (h : Refines memory cmp views) (howner : OwnerOf views owner)
    {g a : Addr} {data : α} (hlive : memory.Live (some g)) (hfresh : memory.Fresh (some a)) :
    OwnerOf (viewStep cmp views (.push (some g) data (some a)))
      (ownerStep memory owner (.push (some g) data (some a))) := by
  obtain ⟨t, hg, _⟩ := h.view_of_live hlive
  have hmem : ∀ b, b ∈ Shape.addrs (Forest.merge (Le cmp) t (Forest.single (a, data))) ↔
      b ∈ Shape.addrs t ∨ b = a := by
    intro b
    rw [(addrs_merge_perm cmp (h.single g t hg) (Forest.single_single (a, data))).mem_iff,
      List.mem_append]
    simp [Shape.addrs]
  intro b g'
  rw [viewStep, hg, Option.map_some, owns_update, ownerStep]
  by_cases hb : b = a
  · subst hb
    have hnot : ¬Owns views g' b := fun howns =>
      hfresh.2 ((h.mem_nodes_iff b).mpr ⟨g', howns⟩)
    by_cases hgg : g' = g
    · simp [hgg, hmem]
    · simp [hgg, Ne.symm hgg, hnot]
  · rw [if_neg hb, howner b g']
    by_cases hgg : g' = g
    · simp [hgg, owns_iff hg, hmem, hb]
    · simp [hgg]

theorem Refines.owns_pop (h : Refines memory cmp views) {g : Addr} {t : Shape α}
    (hg : views g = some t) (g' a : Addr) :
    Owns (viewStep cmp views (.pop (some g))) g' a ↔
      Owns views g' a ∧ Shape.root t ≠ some a := by
  rw [viewStep, hg, Option.map_some, owns_update]
  cases t with
  | nil =>
      by_cases hgg : g' = g
      · simp [hgg, owns_iff hg, Forest.pop]
      · simp [hgg]
  | node x c s =>
      have hs : s = .nil := h.single g _ hg
      subst hs
      have hnodup := h.nodup g _ hg
      rw [addrs_node, addrs_nil, List.append_nil, List.nodup_cons] at hnodup
      have hmem : a ∈ Shape.addrs (Forest.pop (Le cmp) (.node x c .nil)) ↔
          a ∈ Shape.addrs c := (addrs_mergePairs_perm cmp c).mem_iff
      rw [root_node, ne_eq, Option.some.injEq]
      by_cases hgg : g' = g
      · have hne : a ∈ Shape.addrs c → ¬x.1 = a := by
          intro ha heq
          exact hnodup.1 (heq ▸ ha)
        rw [if_pos hgg, hgg, owns_iff hg, addrs_node, addrs_nil, List.append_nil, List.mem_cons,
          @eq_comm _ a x.1]
        simp only [Option.some.injEq, exists_eq_left', hmem]
        tauto
      · have hne : Owns views g' a → ¬x.1 = a := by
          intro howns heq
          exact hgg (h.owns_unique howns ((owns_iff hg a).mpr (by simp [heq])))
        rw [if_neg hgg]
        exact ⟨fun howns => ⟨howns, hne howns⟩, fun howns => howns.1⟩

theorem ownerOf_pop (h : Refines memory cmp views) (howner : OwnerOf views owner) {g : Addr}
    (hlive : memory.Live (some g)) :
    OwnerOf (viewStep cmp views (.pop (some g))) (ownerStep memory owner (.pop (some g))) := by
  obtain ⟨t, hg, hheap⟩ := h.view_of_live hlive
  intro b g'
  rw [h.owns_pop hg, ← howner b g', ownerStep, hheap, Option.bind_some]
  by_cases hb : Shape.root t = some b
  · simp [hb]
  · simp [hb]

theorem ownerOf_merge (h : Refines memory cmp views) (howner : OwnerOf views owner)
    {g₁ g₂ : Addr} (hlive₁ : memory.Live (some g₁)) (hlive₂ : memory.Live (some g₂))
    (hne : g₁ ≠ g₂) :
    OwnerOf (viewStep cmp views (.merge (some g₁) (some g₂)))
      (ownerStep memory owner (.merge (some g₁) (some g₂))) := by
  obtain ⟨t₁, hg₁, _⟩ := h.view_of_live hlive₁
  obtain ⟨t₂, hg₂, _⟩ := h.view_of_live hlive₂
  intro b g'
  have hmem : b ∈ Shape.addrs (Forest.merge (Le cmp) t₁ t₂) ↔
      Owns views g₁ b ∨ Owns views g₂ b := by
    rw [(addrs_merge_perm cmp (h.single g₁ t₁ hg₁) (h.single g₂ t₂ hg₂)).mem_iff,
      List.mem_append, owns_iff hg₁, owns_iff hg₂]
  rw [viewStep, hg₁, hg₂, Option.bind_some, Option.map_some, owns_update, owns_update,
    ownerStep]
  by_cases hb : owner b = some g₂
  · have hb₂ := (howner b g₂).mp hb
    by_cases hgg₂ : g' = g₂
    · simp [hb, hgg₂, hne]
    · by_cases hgg₁ : g' = g₁
      · simp [hb, hgg₁, hne, hmem, hb₂]
      · have hnot : ¬Owns views g' b := fun howns => hgg₂ (h.owns_unique howns hb₂)
        simp [hb, hgg₁, hgg₂, Ne.symm hgg₁, hnot]
  · have hb₂ : ¬Owns views g₂ b := fun howns => hb ((howner b g₂).mpr howns)
    rw [if_neg hb, howner b g']
    by_cases hgg₂ : g' = g₂
    · simp [hgg₂, hb₂]
    · by_cases hgg₁ : g' = g₁
      · simp [hgg₁, hne, hmem, hb₂]
      · simp [hgg₁, hgg₂]

theorem ownerOf_destroy (howner : OwnerOf views owner) (g : Addr) :
    OwnerOf (viewStep cmp views (.destroy (some g)))
      (ownerStep memory owner (.destroy (some g))) := by
  intro b g'
  rw [viewStep, owns_update, ownerStep]
  by_cases hb : owner b = some g
  · by_cases hgg : g' = g
    · simp [hb, hgg]
    · have hnot : ¬Owns views g' b := by
        intro howns
        have hb' := (howner b g').mpr howns
        rw [hb, Option.some.injEq] at hb'
        exact hgg hb'.symm
      simp [hb, hgg, hnot]
  · rw [if_neg hb, howner b g']
    by_cases hgg : g' = g
    · have hnot : ¬Owns views g b := fun howns => hb ((howner b g).mpr howns)
      simp [hgg, hnot]
    · simp [hgg]

theorem ownerOf_new (howner : OwnerOf views owner) (h : Refines memory cmp views) {g : Addr}
    (hfresh : memory.Fresh (some g)) :
    OwnerOf (viewStep cmp views (.new (some g))) (ownerStep memory owner (.new (some g))) := by
  intro b g'
  change owner b = some g' ↔ _
  rw [viewStep, owns_update, howner b g']
  by_cases hgg : g' = g
  · have hnot : ¬Owns views g b := by
      intro howns
      obtain ⟨_, ht, _⟩ := howns
      exact hfresh.1 (h.live_of_view ht)
    simp [hgg, hnot]
  · simp [hgg]

theorem ownerOf_step (h : Refines memory cmp views) (howner : OwnerOf views owner) {op : Op α}
    (hlegal : Legal memory op) :
    OwnerOf (viewStep cmp views op) (ownerStep memory owner op) := by
  cases op with
  | new answer =>
      cases answer with
      | none => exact hlegal.elim
      | some g => exact ownerOf_new howner h hlegal
  | push heap data answer =>
      obtain ⟨hlive, hfresh⟩ := hlegal
      cases heap with
      | none => exact hlive.elim
      | some g =>
          cases answer with
          | none => exact hfresh.elim
          | some a => exact ownerOf_push h howner hlive hfresh
  | poll heap => exact howner
  | pop heap =>
      cases heap with
      | none => exact howner
      | some g => exact ownerOf_pop h howner (of_null_or hlegal)
  | merge h1 h2 =>
      cases h1 with
      | none => exact howner
      | some g₁ =>
          cases h2 with
          | none => exact howner
          | some g₂ =>
              obtain ⟨hlive₁, hlive₂, hne⟩ := hlegal
              exact ownerOf_merge h howner (of_null_or hlive₁)
                (of_null_or hlive₂)
                fun heq => of_null_or hne (congrArg some heq)
  | destroy heap =>
      cases heap with
      | none => exact howner
      | some g => exact ownerOf_destroy howner g

theorem Refines.pop_frees_root (h : Refines memory cmp views) {g r : Addr} {t : Shape α}
    (hg : views g = some t) (hroot : Shape.root t = some r) :
    ∃ memory' item, Heap.heapPop memory (some g) = .ok (memory', some item) ∧
      (∀ a, a ∈ memory'.nodes ↔ a ∈ memory.nodes ∧ a ≠ r) ∧ Unlinked memory' r := by
  obtain ⟨memory', hpop, hrefines'⟩ := h.heapPop (h.live_of_view hg)
  obtain ⟨x, htop, _⟩ := Option.map_eq_some_iff.mp hroot
  have hitem : viewItem views (some g) = some x.2 := by
    rw [viewItem, Option.bind_some, hg, Option.bind_some, htop, Option.map_some]
  have hnodes : ∀ a, a ∈ memory'.nodes ↔ a ∈ memory.nodes ∧ a ≠ r := by
    intro a
    rw [hrefines'.mem_nodes_iff, h.mem_nodes_iff]
    simp only [h.owns_pop hg, hroot, exists_and_right, ne_eq, Option.some.injEq,
      @eq_comm _ r a]
  rw [hitem] at hpop
  exact ⟨memory', x.2, hpop, hnodes, hrefines'.unlinked fun hr => ((hnodes r).mp hr).2 rfl⟩

theorem Refines.partitioned (h : Refines memory cmp views) (howner : OwnerOf views owner) :
    Partitioned memory owner := by
  have hview : ∀ g heap, memory.heaps.lookup g = some heap →
      ∃ t, views g = some t ∧ heap.root = Shape.root t := by
    intro g heap hheap
    obtain ⟨t, hg, hheap'⟩ := h.view_of_live (Finmap.mem_of_lookup_eq_some hheap)
    rw [hheap, Option.some.injEq] at hheap'
    exact ⟨t, hg, by rw [hheap']⟩
  have hmem : ∀ g t, views g = some t → ∀ a, a ∈ Shape.addrs t ↔ owner a = some g := by
    intro g t hg a
    rw [howner a g, owns_iff hg]
  constructor
  case owned =>
    intro a
    rw [h.mem_nodes_iff]
    constructor
    · intro hex
      obtain ⟨g, howns⟩ := hex
      exact ⟨g, h.live_of_view howns.choose_spec.1, (howner a g).mpr howns⟩
    · intro hex
      obtain ⟨g, _, hag⟩ := hex
      exact ⟨g, (howner a g).mp hag⟩
  case tree =>
    intro g heap hheap
    obtain ⟨t, hg, hroot⟩ := hview g heap hheap
    exact ⟨t, hroot, h.rep g t hg, h.nodup g t hg, hmem g t hg⟩
  case reached =>
    intro g heap hheap a
    obtain ⟨t, hg, hroot⟩ := hview g heap hheap
    rw [← hmem g t hg a, hroot]
    exact (h.rep g t hg).reaches_iff a
  case rootSibling =>
    intro g heap r node hheap hr hnode
    obtain ⟨t, hg, hroot⟩ := hview g heap hheap
    have hrep := h.rep g t hg
    have hsingle := h.single g t hg
    rw [hroot] at hr
    cases t with
    | nil => cases hr
    | node x c s =>
        cases hr
        rw [hrep.1, Option.some.injEq] at hnode
        rw [← hnode, Forest.single_node.mp hsingle]
        rfl
  case pop =>
    intro g heap r hheap hr
    obtain ⟨t, hg, hroot⟩ := hview g heap hheap
    exact h.pop_frees_root hg (hroot ▸ hr)
  case destroy =>
    intro g hlive
    obtain ⟨t, hg, _⟩ := h.view_of_live hlive
    obtain ⟨memory', hdestroy, _, hnodes⟩ := h.heapDestroy hlive
    refine ⟨memory', hdestroy, fun a => ?_⟩
    rw [hnodes t hg a, hmem g t hg a]

end Views

/-- The run returns from every call, and at its end the nodes are partitioned
into the trees of the live heaps. -/
def RunsPartitioned (cmp : α → α → Int) (ops : List (Op α)) : Prop :=
  ∃ run, ops.foldlM (OwnedRun.step cmp) OwnedRun.init = .ok run ∧
    Partitioned run.memory run.owner

/-- In every run of legal calls, whatever the comparator. -/
theorem nodes_stay_partitioned (cmp : α → α → Int) (ops : List (Op α))
    (hlegal : AlongM (OwnedRun.step cmp) (fun run op => Legal run.memory op)
      OwnedRun.init ops) : RunsPartitioned cmp ops := by
  let Inv : OwnedRun α → Prop := fun run =>
    ∃ views, Refines run.memory cmp views ∧ OwnerOf views run.owner
  have hinit : Inv OwnedRun.init :=
    ⟨fun _ => none, refines_empty, fun a g => by simp [OwnedRun.init, Owns]⟩
  have hstep : ∀ run op, Inv run → Legal run.memory op →
      ∃ run', OwnedRun.step cmp run op = .ok run' ∧ Inv run' := by
    intro run op hinv hop
    obtain ⟨views, hrefines, howner⟩ := hinv
    obtain ⟨memory', hcall, hrefines'⟩ := hrefines.call hop
    refine ⟨⟨memory', ownerStep run.memory run.owner op⟩, ?_,
      viewStep cmp views op, hrefines', ownerOf_step hrefines howner hop⟩
    rw [OwnedRun.step, hcall]
    rfl
  obtain ⟨run, hrun, views, hrefines, howner⟩ := progress_foldlM hstep hinit hlegal
  exact ⟨run, hrun, hrefines.partitioned howner⟩

theorem nodes_stay_partitioned_merge :
    RunsPartitioned (fun x y : Int => x - y)
      [.new (some 1), .push (some 1) 5 (some 2), .new (some 3), .push (some 3) 4 (some 4),
        .push (some 3) 6 (some 5), .merge (some 1) (some 3), .pop (some 1), .pop (some 1)] :=
  nodes_stay_partitioned _ _ (by decide +kernel)

end Doctrina.Heap
