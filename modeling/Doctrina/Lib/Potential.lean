import Doctrina.Lib.Execution
import Mathlib.Algebra.BigOperators.Group.Finset.Basic
import Mathlib.Algebra.Order.Monoid.Defs
import Mathlib.Data.Fintype.Basic
/-!
# The potential method

Each step of a machine has a cost, and the cost of a run is the sum over its
steps.  Where a step never costs more than an allowance and what the potential
of the state falls by, a run costs no more than its allowances and the
potential it began with.
-/

namespace Doctrina.Lib.Execution

variable {σ τ ι M : Type*} {step : σ → ι → σ}

def total [Zero M] [Add M] (step : σ → ι → σ) (cost : σ → ι → M) : σ → List ι → M
  | _, [] => 0
  | s, op :: ops => cost s op + total step cost (step s op) ops

/-- The machine that keeps its costs in a counter. -/
def counter [Add M] (step : σ → ι → σ) (cost : σ → ι → M) (run : σ × M) (op : ι) : σ × M :=
  (step run.1 op, run.2 + cost run.1 op)

theorem along_of_simulation {ε : Type*} {stepM : σ → ι → Except ε σ} {step' : τ → ι → τ}
    {Sim : τ → σ → Prop} {P : σ → ι → Prop} {Q : τ → ι → Prop}
    (hstep : ∀ t s op, Sim t s → P s op → ∃ s', stepM s op = .ok s' ∧ Sim (step' t op) s')
    (himp : ∀ t s op, Sim t s → P s op → Q t op) {t : τ} {s : σ} {ops : List ι}
    (hinit : Sim t s) (h : AlongM stepM P s ops) : Along step' Q t ops := by
  induction ops generalizing t s with
  | nil => trivial
  | cons op ops ih =>
      obtain ⟨hp, htail⟩ := (alongM_cons s op ops).mp h
      obtain ⟨s', hs', hsim⟩ := hstep t s op hinit hp
      exact ⟨himp t s op hinit hp, ih hsim (htail s' hs')⟩

theorem forall_of_along {R : ι → Prop} {s : σ} {ops : List ι}
    (h : Along step (fun _ op => R op) s ops) : ∀ op ∈ ops, R op := by
  induction ops generalizing s with
  | nil => simp
  | cons op ops ih =>
      intro op' hop'
      cases List.mem_cons.mp hop' with
      | inl heq => exact heq ▸ h.1
      | inr hmem => exact ih h.2 op' hmem

section Monoid

variable [AddMonoid M] {cost : σ → ι → M}

@[simp] theorem total_nil (s : σ) : total step cost s [] = 0 := rfl

@[simp] theorem total_cons (s : σ) (op : ι) (ops : List ι) :
    total step cost s (op :: ops) = cost s op + total step cost (step s op) ops := rfl

theorem foldl_counter (s : σ) (n : M) (ops : List ι) :
    ops.foldl (counter step cost) (s, n) =
      (ops.foldl step s, n + total step cost s ops) := by
  induction ops generalizing s n with
  | nil => simp
  | cons op ops ih => simp [counter, ih, add_assoc]

theorem along_counter {P : σ → ι → Prop} {s : σ} {n : M} {ops : List ι} :
    Along (counter step cost) (fun run op => P run.1 op) (s, n) ops ↔ Along step P s ops := by
  induction ops generalizing s n with
  | nil => exact Iff.rfl
  | cons op ops ih => exact and_congr_right fun _ => ih

theorem total_image {step' : τ → ι → τ} (f : σ → τ) (cost' : τ → ι → M)
    {Inv : σ → Prop} {P : σ → ι → Prop} (hkeep : ∀ s op, Inv s → P s op → Inv (step s op))
    (hstep : ∀ s op, Inv s → P s op → f (step s op) = step' (f s) op)
    (hcost : ∀ s op, Inv s → P s op → cost s op = cost' (f s) op) {s : σ} {ops : List ι}
    (hinit : Inv s) (h : Along step P s ops) :
    total step cost s ops = total step' cost' (f s) ops := by
  induction ops generalizing s with
  | nil => rfl
  | cons op ops ih =>
      rw [total_cons, total_cons, hcost s op hinit h.1, ← hstep s op hinit h.1]
      congr 1
      exact ih (hkeep s op hinit h.1) h.2

end Monoid

section Order

variable [AddCommMonoid M] [PartialOrder M] [IsOrderedAddMonoid M]
  {cost allowance : σ → ι → M}

/-- Both sides of the accounts are kept by every step, so by every run. -/
theorem total_add_potential_le {potential : σ → M} {Inv : σ → Prop} {P : σ → ι → Prop}
    (hkeep : ∀ s op, Inv s → P s op → Inv (step s op))
    (hstep : ∀ s op, Inv s → P s op →
      cost s op + potential (step s op) ≤ allowance s op + potential s)
    {s : σ} {ops : List ι} (hinit : Inv s) (h : Along step P s ops) :
    total step cost s ops + potential (ops.foldl step s) ≤
      total step allowance s ops + potential s := by
  induction ops generalizing s with
  | nil => exact le_refl _
  | cons op ops ih =>
      have hrest := ih (hkeep s op hinit h.1) h.2
      rw [total_cons, total_cons, List.foldl_cons]
      calc cost s op + total step cost (step s op) ops + potential (ops.foldl step (step s op))
          = cost s op + (total step cost (step s op) ops +
              potential (ops.foldl step (step s op))) := add_assoc _ _ _
        _ ≤ cost s op + (total step allowance (step s op) ops + potential (step s op)) :=
          add_le_add_right hrest _
        _ = total step allowance (step s op) ops + (cost s op + potential (step s op)) :=
          add_left_comm _ _ _
        _ ≤ total step allowance (step s op) ops + (allowance s op + potential s) :=
          add_le_add_right (hstep s op hinit h.1) _
        _ = allowance s op + total step allowance (step s op) ops + potential s := by
          rw [← add_assoc, add_comm (total step allowance (step s op) ops)]

end Order

theorem sum_update_add {κ β : Type*} [Fintype κ] [DecidableEq κ] [AddCommMonoid M] (f : β → M)
    (places : κ → β) (k : κ) (u : β) :
    ∑ i, f (Function.update places k u i) + f (places k) = ∑ i, f (places i) + f u := by
  have hrest : ∑ i ∈ Finset.univ.erase k, f (Function.update places k u i) =
      ∑ i ∈ Finset.univ.erase k, f (places i) := by
    refine Finset.sum_congr rfl fun i hi => ?_
    rw [Function.update_of_ne (Finset.ne_of_mem_erase hi)]
  rw [← Finset.add_sum_erase _ _ (Finset.mem_univ k), hrest, Function.update_self,
    ← Finset.add_sum_erase _ _ (Finset.mem_univ k), add_right_comm, add_comm (f u),
    add_right_comm]

end Doctrina.Lib.Execution
