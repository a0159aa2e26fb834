import Mathlib.Data.List.Perm.Basic
/-!
# Pairing heaps

A forest in left-child, right-sibling form: `node value child sibling` is the
tree with root `value` and the children `child`, followed by the trees of
`sibling`.  A heap is a forest of at most one tree.  Merging keeps the
elements for any comparison, and the heap order for a total and transitive
one.
-/

namespace Doctrina.Lib.PairingHeap

inductive Forest (β : Type*)
  | nil
  | node (value : β) (child sibling : Forest β)

namespace Forest

variable {β : Type*}

def elements : Forest β → List β
  | nil => []
  | node x c s => x :: (c.elements ++ s.elements)

def top : Forest β → Option β
  | nil => none
  | node x _ _ => some x

def Single : Forest β → Prop
  | nil => True
  | node _ _ s => s = nil

@[simp] theorem elements_nil : (nil : Forest β).elements = [] := rfl

@[simp] theorem elements_node (x : β) (c s : Forest β) :
    (node x c s).elements = x :: (c.elements ++ s.elements) := rfl

@[simp] theorem top_nil : (nil : Forest β).top = none := rfl

@[simp] theorem top_node (x : β) (c s : Forest β) : (node x c s).top = some x := rfl

@[simp] theorem single_nil : (nil : Forest β).Single := trivial

@[simp] theorem single_node {x : β} {c s : Forest β} : (node x c s).Single ↔ s = nil := Iff.rfl

theorem top_eq_none_iff {t : Forest β} : t.top = none ↔ t.elements = [] := by
  cases t <;> simp

theorem top_mem {t : Forest β} {x : β} (h : t.top = some x) : x ∈ t.elements := by
  cases t with
  | nil => cases h
  | node y c s =>
      cases h
      exact List.mem_cons_self

def single (x : β) : Forest β := node x nil nil

@[simp] theorem elements_single (x : β) : (single x).elements = [x] := rfl

@[simp] theorem single_single (x : β) : (single x).Single := rfl

section Merge

variable (le : β → β → Prop) [DecidableRel le]

/-- The first tree of the loser becomes the first child of the winner. -/
def merge : Forest β → Forest β → Forest β
  | nil, u => u
  | node x c s, nil => node x c s
  | node x c s, node y d u =>
      if le x y then node x (node y d c) s else node y (node x c d) u

/-- Merges the trees two at a time, and the results from the last on. -/
def mergePairs : Forest β → Forest β
  | nil => nil
  | node x c nil => node x c nil
  | node x c (node y d rest) =>
      merge le (merge le (node x c nil) (node y d nil)) (mergePairs rest)

def pop : Forest β → Forest β
  | nil => nil
  | node _ c _ => mergePairs le c

variable {le} {t u : Forest β}

theorem merge_single (ht : t.Single) (hu : u.Single) : (merge le t u).Single := by
  cases t with
  | nil => exact hu
  | node x c s =>
      cases u with
      | nil => exact ht
      | node y d u =>
          rw [merge]
          split
          · exact ht
          · exact hu

theorem elements_merge (ht : t.Single) (hu : u.Single) :
    (merge le t u).elements.Perm (t.elements ++ u.elements) := by
  cases t with
  | nil => exact List.Perm.refl _
  | node x c s =>
      cases u with
      | nil =>
          rw [merge, elements_nil, List.append_nil]
      | node y d u =>
          rw [single_node] at ht hu
          subst ht hu
          rw [merge]
          split
          · simp only [elements_node, elements_nil, List.append_nil, List.cons_append]
            apply List.Perm.cons
            calc y :: (d.elements ++ c.elements)
                = y :: d.elements ++ c.elements := rfl
              _ |>.Perm (c.elements ++ y :: d.elements) := List.perm_append_comm
          · simp only [elements_node, elements_nil, List.append_nil, List.cons_append]
            calc y :: x :: (c.elements ++ d.elements)
                |>.Perm (x :: y :: (c.elements ++ d.elements)) := List.Perm.swap ..
              _ |>.Perm (x :: (c.elements ++ y :: d.elements)) :=
                List.Perm.cons _ List.perm_middle.symm

theorem mergePairs_single (t : Forest β) : (mergePairs le t).Single := by
  induction t using mergePairs.induct with
  | case1 => exact single_nil
  | case2 x c => rfl
  | case3 x c y d rest ih =>
      rw [mergePairs]
      exact merge_single (merge_single rfl rfl) ih

theorem elements_mergePairs (t : Forest β) :
    (mergePairs le t).elements.Perm t.elements := by
  induction t using mergePairs.induct with
  | case1 => exact List.Perm.refl _
  | case2 x c => exact List.Perm.refl _
  | case3 x c y d rest ih =>
      rw [mergePairs]
      have hx : (node x c nil).Single := rfl
      have hy : (node y d nil).Single := rfl
      have hxy : (merge le (node x c nil) (node y d nil)).Single := merge_single hx hy
      calc (merge le (merge le (node x c nil) (node y d nil)) (mergePairs le rest)).elements
          |>.Perm ((merge le (node x c nil) (node y d nil)).elements ++
              (mergePairs le rest).elements) := elements_merge hxy (mergePairs_single rest)
        _ |>.Perm (((node x c nil).elements ++ (node y d nil).elements) ++ rest.elements) :=
          (elements_merge hx hy).append ih
        _ = (node x c (node y d rest)).elements := by simp

theorem elements_pop {x : β} (ht : t.Single) (htop : t.top = some x) :
    t.elements.Perm (x :: (pop le t).elements) := by
  cases t with
  | nil => cases htop
  | node y c s =>
      cases htop
      rw [single_node] at ht
      subst ht
      rw [elements_node, elements_nil, List.append_nil]
      exact (elements_mergePairs c).symm.cons x

end Merge

section Order

variable (le : β → β → Prop)

/-- No element lies below a node of which it is a descendant. -/
def Ordered : Forest β → Prop
  | nil => True
  | node x c s => (∀ y ∈ c.elements, le x y) ∧ c.Ordered ∧ s.Ordered

variable {le} {t u : Forest β}

@[simp] theorem ordered_nil : (nil : Forest β).Ordered le := trivial

@[simp] theorem ordered_node {x : β} {c s : Forest β} :
    (node x c s).Ordered le ↔ (∀ y ∈ c.elements, le x y) ∧ c.Ordered le ∧ s.Ordered le :=
  Iff.rfl

theorem ordered_single (x : β) : (single x).Ordered le := by simp [single]

variable (htotal : ∀ x y, le x y ∨ le y x) (htrans : ∀ x y z, le x y → le y z → le x z)

include htotal in
theorem Ordered.top_le (h : t.Ordered le) (ht : t.Single) {x : β} (htop : t.top = some x) :
    ∀ y ∈ t.elements, le x y := by
  cases t with
  | nil => cases htop
  | node z c s =>
      cases htop
      rw [single_node] at ht
      subst ht
      intro y hy
      rw [elements_node, elements_nil, List.append_nil, List.mem_cons] at hy
      cases hy with
      | inl heq =>
          subst heq
          exact (htotal y y).elim id id
      | inr hmem => exact h.1 y hmem

include htrans in
/-- A tree put in front of the children of a root that is not above its own. -/
theorem Ordered.link {x y : β} {c d : Forest β} (hx : (node x c nil).Ordered le)
    (hy : (node y d nil).Ordered le) (hle : le x y) :
    (node x (node y d c) nil).Ordered le := by
  refine ⟨fun z hz => ?_, ⟨hy.1, hy.2.1, hx.2.1⟩, trivial⟩
  rw [elements_node, List.mem_cons, List.mem_append] at hz
  rcases hz with heq | hz | hz
  · rwa [heq]
  · exact htrans x y z hle (hy.1 z hz)
  · exact hx.1 z hz

variable [DecidableRel le]

include htotal htrans

theorem Ordered.merge (ht : t.Ordered le) (hu : u.Ordered le) (htsingle : t.Single)
    (husingle : u.Single) : (Forest.merge le t u).Ordered le := by
  cases t with
  | nil => exact hu
  | node x c s =>
      cases u with
      | nil => exact ht
      | node y d u =>
          rw [single_node] at htsingle husingle
          subst htsingle husingle
          by_cases hle : le x y
          · rw [Forest.merge, if_pos hle]
            exact ht.link htrans hu hle
          · rw [Forest.merge, if_neg hle]
            exact hu.link htrans ht ((htotal x y).resolve_left hle)

theorem Ordered.mergePairs (h : t.Ordered le) : (Forest.mergePairs le t).Ordered le := by
  induction t using mergePairs.induct with
  | case1 => exact h
  | case2 x c => exact h
  | case3 x c y d rest ih =>
      have hx : (node x c nil).Ordered le := ⟨h.1, h.2.1, trivial⟩
      have hy : (node y d nil).Ordered le := ⟨h.2.2.1, h.2.2.2.1, trivial⟩
      rw [Forest.mergePairs]
      exact Ordered.merge htotal htrans (Ordered.merge htotal htrans hx hy rfl rfl)
        (ih h.2.2.2.2) (merge_single rfl rfl) (mergePairs_single rest)

theorem Ordered.pop (h : t.Ordered le) : (Forest.pop le t).Ordered le := by
  cases t with
  | nil => exact h
  | node x c s => exact Ordered.mergePairs htotal htrans h.2.1

end Order

end Forest

end Doctrina.Lib.PairingHeap
