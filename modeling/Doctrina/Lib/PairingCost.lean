import Doctrina.Lib.PairingHeap
import Mathlib.Analysis.SpecialFunctions.Log.Base
import Mathlib.Tactic.Linarith
/-!
# The comparisons of a pairing heap

`mergeCost`, `mergePairsCost` and `popCost` count the comparisons that the
operations make.  The potential of a forest is the sum, over its nodes, of the
binary logarithm of the number of nodes below a node and behind it in its
chain.  With it a merge costs one comparison and a logarithm, and a removal of
the root two logarithms, whatever the comparison decides.
-/

namespace Doctrina.Lib.PairingHeap.Forest

open Real

variable {β : Type*}

def size (t : Forest β) : ℕ := t.elements.length

def trees : Forest β → ℕ
  | nil => 0
  | node _ _ s => s.trees + 1

noncomputable def potential : Forest β → ℝ
  | nil => 0
  | node x c s => c.potential + s.potential + logb 2 (node x c s).size

/-- What a merge that gives a heap of `n` elements is allowed. -/
noncomputable def mergeBound (n : ℕ) : ℝ := 1 + logb 2 n

/-- What a removal of the root is allowed in a heap of `n` elements. -/
noncomputable def popBound (n : ℕ) : ℝ := 2 * logb 2 n

section Size

variable {x : β} {c s : Forest β}

@[simp] theorem size_nil : (nil : Forest β).size = 0 := rfl

@[simp] theorem size_node : (node x c s).size = c.size + s.size + 1 := by
  simp [size]

@[simp] theorem potential_nil : (nil : Forest β).potential = 0 := rfl

theorem potential_node : (node x c s).potential =
    c.potential + s.potential + logb 2 (c.size + s.size + 1) := by
  rw [potential, size_node]
  push_cast
  rfl

@[simp] theorem potential_single (x : β) : (single x).potential = 0 := by
  simp [single, potential_node]

theorem logb_natCast_nonneg (n : ℕ) : 0 ≤ logb 2 n := by
  cases n with
  | zero => simp
  | succ n => exact logb_nonneg one_lt_two (by simp)

theorem logb_natCast_mono {m n : ℕ} (h : m ≤ n) : logb 2 m ≤ logb 2 n := by
  cases m with
  | zero => simpa using logb_natCast_nonneg n
  | succ m => exact logb_le_logb_of_le one_lt_two (by positivity) (by exact_mod_cast h)

theorem mergeBound_mono {m n : ℕ} (h : m ≤ n) : mergeBound m ≤ mergeBound n := by
  have hlog := logb_natCast_mono h
  unfold mergeBound
  linarith

theorem popBound_mono {m n : ℕ} (h : m ≤ n) : popBound m ≤ popBound n := by
  have hlog := logb_natCast_mono h
  unfold popBound
  linarith

theorem mergeBound_nonneg (n : ℕ) : 0 ≤ mergeBound n := by
  have hlog := logb_natCast_nonneg n
  unfold mergeBound
  linarith

theorem popBound_nonneg (n : ℕ) : 0 ≤ popBound n := by
  have hlog := logb_natCast_nonneg n
  unfold popBound
  linarith

theorem logb_mono {m n : ℝ} (hm : 1 ≤ m) (h : m ≤ n) : logb 2 m ≤ logb 2 n :=
  logb_le_logb_of_le one_lt_two (by linarith) h

/-- Two parts of a whole have at most half of it on geometric average. -/
theorem logb_add_logb_le {m n : ℝ} (hm : 0 < m) (hn : 0 < n) :
    logb 2 m + logb 2 n + 2 ≤ 2 * logb 2 (m + n) := by
  have hfour : logb 2 ((2 : ℝ) ^ 2) = 2 := by
    rw [logb_pow, logb_self_eq_one one_lt_two]
    norm_num
  have hprod : m * n * 2 ^ 2 ≤ (m + n) ^ 2 := by nlinarith [sq_nonneg (m - n)]
  calc logb 2 m + logb 2 n + 2
      = logb 2 (m * n * 2 ^ 2) := by
        rw [logb_mul (by positivity) (by positivity), logb_mul hm.ne' hn.ne', hfour]
    _ ≤ logb 2 ((m + n) ^ 2) := logb_le_logb_of_le one_lt_two (by positivity) hprod
    _ = 2 * logb 2 (m + n) := by
        rw [logb_pow]
        norm_num

theorem potential_nonneg (t : Forest β) : 0 ≤ t.potential := by
  induction t with
  | nil => exact le_refl _
  | node x c s ihc ihs =>
      have hlog := logb_natCast_nonneg (node x c s).size
      rw [potential]
      linarith

end Size

section Costs

variable (le : β → β → Prop) [DecidableRel le]

def mergeCost : Forest β → Forest β → ℕ
  | node _ _ _, node _ _ _ => 1
  | _, _ => 0

def mergePairsCost : Forest β → ℕ
  | nil => 0
  | node _ _ nil => 0
  | node x c (node y d rest) =>
      mergeCost (node x c nil) (node y d nil) + mergePairsCost rest +
        mergeCost (merge le (node x c nil) (node y d nil)) (mergePairs le rest)

def popCost : Forest β → ℕ
  | nil => 0
  | node _ c _ => mergePairsCost le c

variable {le} {t u : Forest β}

theorem size_merge (ht : t.Single) (hu : u.Single) : (merge le t u).size = t.size + u.size := by
  rw [size, (elements_merge ht hu).length_eq, List.length_append]
  rfl

theorem size_merge_node (le : β → β → Prop) [DecidableRel le] (x y : β) (c d : Forest β) :
    (merge le (node x c nil) (node y d nil)).size = c.size + d.size + 2 := by
  have hx : (node x c nil).Single := rfl
  have hy : (node y d nil).Single := rfl
  rw [size_merge hx hy]
  simp only [size_node, size_nil]
  omega

theorem size_mergePairs (le : β → β → Prop) [DecidableRel le] (t : Forest β) :
    (mergePairs le t).size = t.size :=
  (elements_mergePairs t).length_eq

theorem potential_merge_node (le : β → β → Prop) [DecidableRel le] (x y : β) (c d : Forest β) :
    (merge le (node x c nil) (node y d nil)).potential =
      c.potential + d.potential + logb 2 (c.size + d.size + 1) +
        logb 2 (c.size + d.size + 2) := by
  have hsum : (c.size : ℝ) + d.size + 1 + 0 + 1 = c.size + d.size + 2 := by ring
  rw [merge]
  split
  · simp only [potential_node, size_node, size_nil, potential_nil, Nat.cast_add, Nat.cast_one,
      Nat.cast_zero]
    rw [show (d.size : ℝ) + c.size + 1 + 0 + 1 = c.size + d.size + 2 by ring,
      show (d.size : ℝ) + c.size + 1 = c.size + d.size + 1 by ring]
    ring
  · simp only [potential_node, size_node, size_nil, potential_nil, Nat.cast_add, Nat.cast_one,
      Nat.cast_zero]
    rw [hsum]
    ring

/-- A merge costs no more than it is allowed and takes from the potential. -/
theorem merge_amortized (le : β → β → Prop) [DecidableRel le] (ht : t.Single)
    (hu : u.Single) :
    mergeCost t u + (merge le t u).potential ≤
      mergeBound (t.size + u.size) + t.potential + u.potential := by
  rw [mergeBound, Nat.cast_add]
  cases t with
  | nil =>
      have hlog := logb_natCast_nonneg u.size
      simp only [mergeCost, merge, size_nil, potential_nil, Nat.cast_zero, zero_add]
      linarith
  | node x c s =>
      cases u with
      | nil =>
          have hlog := logb_natCast_nonneg (node x c s).size
          simp only [mergeCost, merge, size_nil, potential_nil, Nat.cast_zero, add_zero, zero_add]
          linarith
      | node y d u =>
          rw [single_node] at ht hu
          subst ht hu
          have hc : (0 : ℝ) ≤ c.size := Nat.cast_nonneg _
          have hd : (0 : ℝ) ≤ d.size := Nat.cast_nonneg _
          -- the roots were paid for apart, which covers the lower of the two
          have hroots : logb 2 (c.size + d.size + 1) ≤
              logb 2 (c.size + 1) + logb 2 (d.size + 1) := by
            rw [← logb_mul (by positivity) (by positivity)]
            apply logb_mono (by linarith)
            nlinarith
          rw [potential_merge_node]
          simp only [mergeCost, size_node, size_nil, potential_node, potential_nil, Nat.cast_add,
            Nat.cast_one, Nat.cast_zero, add_zero]
          rw [show (c.size : ℝ) + 1 + (d.size + 1) = c.size + d.size + 2 by ring]
          linarith

theorem potential_merge_pair (le : β → β → Prop) [DecidableRel le] (x y : β) (c d : Forest β)
    (hu : u.Single) :
    (merge le (merge le (node x c nil) (node y d nil)) u).potential + logb 2 u.size ≤
      c.potential + d.potential + u.potential + logb 2 (c.size + d.size + 1) +
        2 * logb 2 (c.size + d.size + 2 + u.size) := by
  have hpair : (merge le (node x c nil) (node y d nil)).Single := merge_single rfl rfl
  have hpotential := potential_merge_node le x y c d
  have hsize := size_merge_node le x y c d
  revert hpair hpotential hsize
  generalize merge le (node x c nil) (node y d nil) = t
  intro ht hpotential hsize
  have hc : (0 : ℝ) ≤ c.size := Nat.cast_nonneg _
  have hd : (0 : ℝ) ≤ d.size := Nat.cast_nonneg _
  cases t with
  | nil => simp at hsize
  | node z e s =>
      rw [single_node] at ht
      subst ht
      have he : (e.size : ℝ) + 1 = c.size + d.size + 2 := by
        have hnat : e.size + 1 = c.size + d.size + 2 := by simpa using hsize
        exact_mod_cast hnat
      rw [potential_node, size_nil, potential_nil, Nat.cast_zero, add_zero, add_zero, he]
        at hpotential
      cases u with
      | nil =>
          have hgrow := logb_natCast_nonneg (c.size + d.size + 2)
          push_cast at hgrow
          simp only [merge, size_nil, potential_nil, Nat.cast_zero, logb_zero, add_zero]
          rw [potential_node, size_nil, potential_nil, Nat.cast_zero, add_zero, add_zero, he]
          linarith
      | node w f u =>
          rw [single_node] at hu
          subst hu
          have hf : (0 : ℝ) ≤ f.size := Nat.cast_nonneg _
          have hmono : logb 2 (e.size + f.size + 1) ≤ logb 2 (c.size + d.size + 2 + (f.size + 1)) :=
            logb_mono (by linarith [(Nat.cast_nonneg e.size : (0 : ℝ) ≤ e.size)]) (by linarith)
          have hlast : logb 2 ((e.size : ℝ) + f.size + 2) =
              logb 2 (c.size + d.size + 2 + (f.size + 1)) := by
            rw [← he]
            ring_nf
          rw [potential_merge_node, hlast]
          simp only [potential_node, size_node, size_nil, potential_nil, Nat.cast_add,
            Nat.cast_one, Nat.cast_zero, add_zero]
          linarith

/-- The comparisons of merging a chain of trees two at a time, less one for
every tree, are paid by three logarithms. -/
theorem mergePairs_potential (ht : t ≠ nil) :
    (mergePairs le t).potential + t.trees ≤ t.potential + 3 * logb 2 t.size + 1 := by
  induction t using mergePairs.induct with
  | case1 => exact absurd rfl ht
  | case2 x c =>
      have hlog := logb_natCast_nonneg (node x c nil).size
      simp only [mergePairs, trees, zero_add, Nat.cast_one]
      linarith
  | case3 x c y d rest ih =>
      have hsingle : (mergePairs le rest).Single := mergePairs_single rest
      have hmerge := potential_merge_pair le x y c d hsingle
      have hc : (0 : ℝ) ≤ c.size := Nat.cast_nonneg _
      have hd : (0 : ℝ) ≤ d.size := Nat.cast_nonneg _
      rw [size_mergePairs] at hmerge
      have hwhole : (c.size : ℝ) + (d.size + rest.size + 1) + 1 =
          c.size + d.size + 2 + rest.size := by ring
      rw [mergePairs]
      simp only [potential_node, size_node, trees, Nat.cast_add, Nat.cast_one, hwhole]
      cases hrest : rest with
      | nil =>
          simp only [hrest, size_nil, potential_nil, Nat.cast_zero, trees, mergePairs,
            add_zero, logb_zero] at hmerge ⊢
          have hlower : logb 2 ((c.size : ℝ) + d.size + 1) ≤ logb 2 (c.size + d.size + 2) :=
            logb_mono (by linarith) (by linarith)
          have hone : (1 : ℝ) ≤ logb 2 ((c.size : ℝ) + d.size + 2) := by
            rw [← logb_self_eq_one one_lt_two]
            exact logb_mono one_le_two (by linarith)
          have hd' : 0 ≤ logb 2 ((d.size : ℝ) + 1) := logb_nonneg one_lt_two (by linarith)
          linarith
      | node z e s =>
          rw [← hrest]
          have hne : rest ≠ nil := by
            rw [hrest]
            exact fun h => by cases h
          have hpos : (0 : ℝ) < rest.size := by
            rw [hrest, size_node]
            positivity
          have hr : (1 : ℝ) ≤ rest.size := by exact_mod_cast Nat.cast_pos.mp hpos
          have hrec := ih hne
          -- the pair and the rest are two parts of the whole
          have hparts := logb_add_logb_le (m := c.size + d.size + 1) (by linarith) hpos
          have hgrow : logb 2 ((c.size : ℝ) + d.size + 1 + rest.size) ≤
              logb 2 (c.size + d.size + 2 + rest.size) := logb_mono (by linarith) (by linarith)
          have hsecond : logb 2 (rest.size : ℝ) ≤ logb 2 (d.size + rest.size + 1) :=
            logb_mono hr (by linarith)
          linarith

theorem mergePairs_ne_nil (ht : t ≠ nil) : mergePairs le t ≠ nil := by
  intro h
  have hsize := size_mergePairs le t
  rw [h] at hsize
  cases t with
  | nil => exact ht rfl
  | node x c s => simp at hsize

theorem mergePairsCost_eq (t : Forest β) : mergePairsCost le t = t.trees - 1 := by
  induction t using mergePairs.induct with
  | case1 => rfl
  | case2 x c => rfl
  | case3 x c y d rest ih =>
      have hpair : merge le (node x c nil) (node y d nil) ≠ nil := by
        intro h
        have hsize := size_merge_node le x y c d
        rw [h] at hsize
        simp at hsize
      rw [mergePairsCost, ih]
      cases hrest : rest with
      | nil => simp [trees, mergePairs, mergeCost]
      | node z e s =>
          rw [← hrest]
          have hlast : mergeCost (merge le (node x c nil) (node y d nil)) (mergePairs le rest) =
              1 := by
            have hne : mergePairs le rest ≠ nil := mergePairs_ne_nil (by simp [hrest])
            unfold mergeCost
            split
            · rfl
            · next hnot =>
                cases hp : merge le (node x c nil) (node y d nil) with
                | nil => exact absurd hp hpair
                | node z e s =>
                    cases hq : mergePairs le rest with
                    | nil => exact absurd hq hne
                    | node w f u => exact (hnot _ _ _ _ _ _ hp hq).elim
          have htrees : rest.trees = s.trees + 1 := by rw [hrest, trees]
          rw [hlast, trees, trees, htrees]
          simp only [mergeCost]
          omega

theorem pop_amortized (le : β → β → Prop) [DecidableRel le] (ht : t.Single) :
    popCost le t + (pop le t).potential ≤ popBound t.size + t.potential := by
  rw [popBound]
  cases t with
  | nil => simp [popCost, pop]
  | node x c s =>
      rw [single_node] at ht
      subst ht
      rw [popCost, pop, mergePairsCost_eq, potential_node, size_node, size_nil, potential_nil]
      cases hc : c with
      | nil =>
          simp [trees, mergePairs]
      | node y d s =>
          rw [← hc]
          have hne : c ≠ nil := by simp [hc]
          have hpairs : (mergePairs le c).potential + c.trees ≤ _ := mergePairs_potential hne
          have htrees : c.trees = s.trees + 1 := by rw [hc, trees]
          have hcast : ((c.trees - 1 : ℕ) : ℝ) + 1 = c.trees := by
            rw [htrees]
            simp
          have hpos : (1 : ℝ) ≤ c.size := by
            rw [hc, size_node]
            push_cast
            linarith [(Nat.cast_nonneg d.size : (0 : ℝ) ≤ d.size),
              (Nat.cast_nonneg s.size : (0 : ℝ) ≤ s.size)]
          have hgrow : logb 2 (c.size : ℝ) ≤ logb 2 (c.size + 1) :=
            logb_mono hpos (by linarith)
          push_cast
          rw [add_zero, add_zero]
          linarith

end Costs

end Doctrina.Lib.PairingHeap.Forest
