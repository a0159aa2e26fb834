import Mathlib.Data.List.Induction
/-!
# Paths in a graph with labelled edges

`next a x` is the node at the end of the edge with label `x` out of `a`.  In a
tree every node is at the end of one path from the root at most; a new leaf
adds one path and leaves the others as they are.
-/

namespace Doctrina.Lib.Walk

variable {ν κ : Type*} {next next' : ν → κ → Option ν}

/-- The node at the end of a path. -/
def walk (next : ν → κ → Option ν) : ν → List κ → Option ν
  | a, [] => some a
  | a, x :: path => (next a x).bind fun b => walk next b path

@[simp] theorem walk_nil (a : ν) : walk next a [] = some a := rfl

theorem walk_cons (a : ν) (x : κ) (path : List κ) :
    walk next a (x :: path) = (next a x).bind fun b => walk next b path := rfl

theorem walk_append (a : ν) (p q : List κ) :
    walk next a (p ++ q) = (walk next a p).bind fun b => walk next b q := by
  induction p generalizing a with
  | nil => rfl
  | cons x p ih =>
      rw [List.cons_append, walk_cons, walk_cons, Option.bind_assoc]
      congr 1
      funext b
      exact ih b

theorem walk_concat (a : ν) (p : List κ) (x : κ) :
    walk next a (p ++ [x]) = (walk next a p).bind fun b => next b x := by
  rw [walk_append]
  congr 1
  funext b
  rw [walk_cons]
  exact Option.bind_fun_some (next b x)

/-- Different paths from the root end at different nodes. -/
def Unshared (next : ν → κ → Option ν) (root : ν) : Prop :=
  ∀ p q a, walk next root p = some a → walk next root q = some a → p = q

theorem walk_congr {a : ν} (h : ∀ p b, walk next a p = some b → next' b = next b)
    (p : List κ) : walk next' a p = walk next a p := by
  induction p using List.reverseRecOn with
  | nil => rfl
  | append_singleton p x ih =>
      rw [walk_concat, walk_concat, ih]
      cases hb : walk next a p with
      | none => rfl
      | some b => rw [Option.bind_some, Option.bind_some, h p b hb]

theorem Unshared.below {a b : ν} {p : List κ} (h : Unshared next a)
    (hp : walk next a p = some b) : Unshared next b := by
  intro q r c hq hr
  have hpaths : p ++ q = p ++ r := by
    apply h (p ++ q) (p ++ r) c
    · rw [walk_append, hp, Option.bind_some, hq]
    · rw [walk_append, hp, Option.bind_some, hr]
  exact List.append_cancel_left hpaths

/-- The edge with label `x` out of the node at the end of `path` is added, to a
leaf that no path ends at. -/
structure AddsLeaf (next next' : ν → κ → Option ν) (root : ν) (path : List κ) (a : ν) (x : κ)
    (b : ν) : Prop where
  parent : walk next root path = some a
  vacant : next a x = none
  edge : next' a x = some b
  others : ∀ c y, (c = a → y ≠ x) → next' c y = next c y
  leaf : ∀ y, next b y = none
  fresh : ∀ p, walk next root p ≠ some b

namespace AddsLeaf

variable {root a b : ν} {path : List κ} {x : κ}

theorem walk_cases (h : AddsLeaf next next' root path a x b) (hunshared : Unshared next root)
    (p : List κ) :
    (p = path ++ [x] → walk next' root p = some b) ∧
      (p ≠ path ++ [x] → walk next' root p = walk next root p) := by
  have hab : b ≠ a := fun heq => h.fresh path (heq ▸ h.parent)
  induction p using List.reverseRecOn with
  | nil => exact ⟨fun heq => by simp at heq, fun _ => rfl⟩
  | append_singleton q y ih =>
      rw [walk_concat, walk_concat]
      by_cases hq : q = path ++ [x]
      · -- below the leaf there is nothing
        have hbelow : walk next root q = none := by
          rw [hq, walk_concat, h.parent, Option.bind_some, h.vacant]
        rw [ih.1 hq, hbelow, Option.bind_some, Option.bind_none,
          h.others b y fun heq => absurd heq hab]
        refine ⟨fun heq => ?_, fun _ => h.leaf y⟩
        have hlength := congrArg List.length heq
        rw [hq] at hlength
        simp at hlength
      · rw [ih.2 hq]
        constructor
        · intro heq
          obtain ⟨rfl, hlast⟩ := List.append_inj' heq rfl
          rw [List.cons.injEq] at hlast
          rw [h.parent, Option.bind_some, hlast.1, h.edge]
        · intro hne
          cases hc : walk next root q with
          | none => rfl
          | some c =>
              rw [Option.bind_some, Option.bind_some]
              apply h.others
              intro hca hyx
              have hqpath : q = path := hunshared q path a (hca ▸ hc) h.parent
              exact hne (by rw [hqpath, hyx])

variable (h : AddsLeaf next next' root path a x b) (hunshared : Unshared next root)

include h hunshared

theorem walk_leaf : walk next' root (path ++ [x]) = some b :=
  (h.walk_cases hunshared (path ++ [x])).1 rfl

theorem walk_other {p : List κ} (hp : p ≠ path ++ [x]) :
    walk next' root p = walk next root p := (h.walk_cases hunshared p).2 hp

theorem unshared : Unshared next' root := by
  intro p q c hp hq
  by_cases heqp : p = path ++ [x]
  · by_cases heqq : q = path ++ [x]
    · rw [heqp, heqq]
    · rw [heqp, h.walk_leaf hunshared] at hp
      rw [h.walk_other hunshared heqq, ← hp] at hq
      exact absurd hq (h.fresh q)
  · rw [h.walk_other hunshared heqp] at hp
    by_cases heqq : q = path ++ [x]
    · rw [heqq, h.walk_leaf hunshared] at hq
      rw [← hq] at hp
      exact absurd hp (h.fresh p)
    · rw [h.walk_other hunshared heqq] at hq
      exact hunshared p q c hp hq

end AddsLeaf

end Doctrina.Lib.Walk
