import Doctrina.Heap.Shape
import Mathlib.Logic.Function.Basic
/-!
# Calls of heap.c as operations on pairing heaps

A view gives the forest of every live heap.  `Refines` ties the memory to a
view: every heap has its own nodes, they make up its forest, and no node is
left over.  Each call acts on the view as the operation of `Lib.PairingHeap`
does, and does not fault.
-/

namespace Doctrina.Heap

open Doctrina.Lib.PairingHeap

variable {α : Type}

inductive Op (α : Type)
  | new (answer : Option Addr)
  | push (heap : Option Addr) (data : α) (answer : Option Addr)
  | poll (heap : Option Addr)
  | pop (heap : Option Addr)
  | merge (h1 h2 : Option Addr)
  | destroy (heap : Option Addr)

inductive Result (α : Type)
  | status (value : Int)
  | heap (pointer : Option Addr)
  | item (data : Option α)
  | void

def call (cmp : α → α → Int) (self : Memory α) : Op α → Except Fault (Memory α × Result α)
  | .new answer =>
      (heapNew self cmp answer).map fun (self, heap) => (self, .heap (some heap))
  | .push heap data answer =>
      (heapPush self heap data answer).map fun (self, value) => (self, .status value)
  | .poll heap => (heapPoll self heap).map fun data => (self, .item data)
  | .pop heap => (heapPop self heap).map fun (self, data) => (self, .item data)
  | .merge h1 h2 => (heapMerge self h1 h2).map fun (self, heap) => (self, .heap heap)
  | .destroy heap => (heapDestroy self heap).map fun self => (self, .void)

/-- An answer of `calloc` that is neither NULL nor live. -/
def Memory.Fresh (self : Memory α) : Option Addr → Prop
  | none => False
  | some a => a ∉ self.heaps ∧ a ∉ self.nodes

def Memory.Live (self : Memory α) : Option Addr → Prop
  | none => False
  | some a => a ∈ self.heaps

/-- The call is made on live heaps, or on NULL where heap.c takes it, it merges
two distinct ones, and `calloc` has memory. -/
def Legal (self : Memory α) : Op α → Prop
  | .new answer => self.Fresh answer
  | .push heap _ answer => self.Live heap ∧ self.Fresh answer
  | .poll heap => heap = none ∨ self.Live heap
  | .pop heap => heap = none ∨ self.Live heap
  | .merge h1 h2 => (h1 = none ∨ self.Live h1) ∧ (h2 = none ∨ self.Live h2) ∧
      (h1 = none ∨ h1 ≠ h2)
  | .destroy heap => heap = none ∨ self.Live heap

theorem of_null_or {a : Addr} {P : Prop} (h : some a = none ∨ P) : P :=
  h.resolve_left (Option.some_ne_none a)

instance (self : Memory α) : DecidablePred self.Fresh
  | none => .isFalse id
  | some _ => inferInstanceAs (Decidable (_ ∧ _))

instance (self : Memory α) : DecidablePred self.Live
  | none => .isFalse id
  | some a => inferInstanceAs (Decidable (a ∈ self.heaps))

instance (self : Memory α) : DecidablePred (Legal self)
  | .new answer => inferInstanceAs (Decidable (self.Fresh answer))
  | .push _ _ _ => inferInstanceAs (Decidable (_ ∧ _))
  | .poll _ | .pop _ | .destroy _ => inferInstanceAs (Decidable (_ ∨ _))
  | .merge _ _ => inferInstanceAs (Decidable (_ ∧ _ ∧ _))

abbrev Views (α : Type) : Type := Addr → Option (Shape α)

def viewStep (cmp : α → α → Int) (views : Views α) : Op α → Views α
  | .new (some h) => Function.update views h (some .nil)
  | .push (some h) data (some a) =>
      Function.update views h
        ((views h).map fun t => Forest.merge (Le cmp) t (Forest.single (a, data)))
  | .pop (some h) => Function.update views h ((views h).map (Forest.pop (Le cmp)))
  | .merge (some h1) (some h2) =>
      Function.update
        (Function.update views h1
          ((views h1).bind fun t => (views h2).map (Forest.merge (Le cmp) t)))
        h2 none
  | .destroy (some h) => Function.update views h none
  | _ => views

structure Refines (memory : Memory α) (cmp : α → α → Int) (views : Views α) : Prop where
  heap : ∀ h, memory.heaps.lookup h = (views h).map fun t => ⟨t.root, cmp⟩
  rep : ∀ h t, views h = some t → Rep memory.nodes t
  single : ∀ h t, views h = some t → t.Single
  nodup : ∀ h t, views h = some t → (Shape.addrs t).Nodup
  disjoint : ∀ h h' t t' a, views h = some t → views h' = some t' →
    a ∈ Shape.addrs t → a ∈ Shape.addrs t' → h = h'
  owned : ∀ a ∈ memory.nodes, ∃ h t, views h = some t ∧ a ∈ Shape.addrs t

def viewItem (views : Views α) (heap : Option Addr) : Option α :=
  (heap.bind views).bind fun t => t.top.map Prod.snd

def viewResult (views : Views α) : Op α → Result α
  | .new answer => .heap answer
  | .push _ _ _ => .status 0
  | .poll heap => .item (viewItem views heap)
  | .pop heap => .item (viewItem views heap)
  | .merge h1 h2 => .heap (h1.or h2)
  | .destroy _ => .void

section Refines

variable {self : Memory α} {cmp : α → α → Int} {views : Views α}

namespace Refines

variable (h : Refines self cmp views)

include h

theorem view_of_live {g : Addr} (hlive : g ∈ self.heaps) :
    ∃ t, views g = some t ∧ self.heaps.lookup g = some ⟨Shape.root t, cmp⟩ := by
  obtain ⟨object, hobject⟩ := Finmap.mem_iff.mp hlive
  have hview := h.heap g
  rw [hobject] at hview
  cases hg : views g with
  | none => simp [hg] at hview
  | some t =>
      refine ⟨t, rfl, ?_⟩
      rw [hobject, hview, hg]
      rfl

theorem live_of_view {g : Addr} {t : Shape α} (hg : views g = some t) : g ∈ self.heaps := by
  apply Finmap.mem_iff.mpr
  rw [h.heap g, hg]
  exact ⟨_, rfl⟩

theorem node_live {g : Addr} {t : Shape α} (hg : views g = some t) {a : Addr}
    (ha : a ∈ Shape.addrs t) : a ∈ self.nodes :=
  (h.rep g t hg).live a ha

/-- A call that changes the nodes of `touched` at most keeps the invariant, if
every forest of the new view either avoids them or is that of `g₀`, which owns
them from then on. -/
theorem replace {self' : Memory α} {views' : Views α} (g₀ : Addr) (touched : List Addr)
    (hheap : ∀ g, self'.heaps.lookup g = (views' g).map fun t => ⟨t.root, cmp⟩)
    (hframe : ∀ a, a ∉ touched → self'.nodes.lookup a = self.nodes.lookup a)
    (hviews : ∀ g t, views' g = some t →
      (views g = some t ∧ ∀ a ∈ Shape.addrs t, a ∉ touched) ∨
      (g = g₀ ∧ Rep self'.nodes t ∧ t.Single ∧ (Shape.addrs t).Nodup ∧
        ∀ a ∈ Shape.addrs t, a ∈ touched))
    (hlive : ∀ a ∈ touched, a ∈ self'.nodes → ∃ t, views' g₀ = some t ∧ a ∈ Shape.addrs t)
    (hkeep : ∀ g t, views g = some t → views' g = some t ∨
      ∀ a ∈ Shape.addrs t, a ∈ touched) : Refines self' cmp views' where
  heap := hheap
  rep g t hg := by
    rcases hviews g t hg with ⟨hold, havoid⟩ | ⟨_, hrep, _⟩
    · exact (h.rep g t hold).congr fun a ha => hframe a (havoid a ha)
    · exact hrep
  single g t hg := by
    rcases hviews g t hg with ⟨hold, _⟩ | ⟨_, _, hsingle, _⟩
    · exact h.single g t hold
    · exact hsingle
  nodup g t hg := by
    rcases hviews g t hg with ⟨hold, _⟩ | ⟨_, _, _, hnodup, _⟩
    · exact h.nodup g t hold
    · exact hnodup
  disjoint g g' t t' a hg hg' ha ha' := by
    rcases hviews g t hg with ⟨hold, havoid⟩ | ⟨heq, _, _, _, hin⟩
    · rcases hviews g' t' hg' with ⟨hold', _⟩ | ⟨_, _, _, _, hin'⟩
      · exact h.disjoint g g' t t' a hold hold' ha ha'
      · exact absurd (hin' a ha') (havoid a ha)
    · rcases hviews g' t' hg' with ⟨_, havoid'⟩ | ⟨heq', _⟩
      · exact absurd (hin a ha) (havoid' a ha')
      · rw [heq, heq']
  owned a ha := by
    by_cases hmem : a ∈ touched
    · obtain ⟨t, hg, hat⟩ := hlive a hmem ha
      exact ⟨g₀, t, hg, hat⟩
    · have hold : a ∈ self.nodes := by
        rw [Finmap.mem_iff] at ha ⊢
        rwa [hframe a hmem] at ha
      obtain ⟨g, t, hg, hat⟩ := h.owned a hold
      rcases hkeep g t hg with hsame | hin
      · exact ⟨g, t, hsame, hat⟩
      · exact absurd (hin a hat) hmem

theorem update {g : Addr} {t t' : Shape α} (hg : views g = some t)
    {nodes' : Store (HeapNode α)} (fresh : List Addr)
    (hfresh : ∀ a ∈ fresh, a ∉ self.nodes)
    (hframe : ∀ a, a ∉ Shape.addrs t ++ fresh → nodes'.lookup a = self.nodes.lookup a)
    (hrep : Rep nodes' t') (hsingle : t'.Single) (hnodup : (Shape.addrs t').Nodup)
    (hsub : ∀ a ∈ Shape.addrs t', a ∈ Shape.addrs t ++ fresh)
    (hlive : ∀ a ∈ Shape.addrs t ++ fresh, a ∈ nodes' → a ∈ Shape.addrs t') :
    Refines ⟨self.heaps.insert g ⟨t'.root, cmp⟩, nodes'⟩ cmp
      (Function.update views g (some t')) := by
  apply h.replace g (Shape.addrs t ++ fresh)
  · intro g'
    rw [Store.lookup_insert_eq, Function.update_apply]
    split
    · rfl
    · exact h.heap g'
  · exact hframe
  · intro g' s hs
    by_cases heq : g' = g
    · rw [heq, Function.update_self, Option.some.injEq] at hs
      subst hs
      exact .inr ⟨heq, hrep, hsingle, hnodup, hsub⟩
    · rw [Function.update_of_ne heq] at hs
      refine .inl ⟨hs, fun a ha hmem => ?_⟩
      cases List.mem_append.mp hmem with
      | inl hat => exact heq (h.disjoint g' g s t a hs hg ha hat)
      | inr hnew => exact hfresh a hnew (h.node_live hs ha)
  · intro a ha halive
    exact ⟨t', Function.update_self .., hlive a ha halive⟩
  · intro g' s hs
    by_cases heq : g' = g
    · rw [heq, hg, Option.some.injEq] at hs
      subst hs
      exact .inr fun a ha => List.mem_append_left _ ha
    · exact .inl (by rwa [Function.update_of_ne heq])

end Refines

end Refines

end Doctrina.Heap
