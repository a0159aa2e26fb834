import Doctrina.Lib.PairingHeap
import Mathlib.Data.List.Count
/-!
# Emptying a pairing heap

The roots that a heap loses until it is empty are its elements in an order
that never descends.  Two such orders of the same elements agree up to
elements that neither is below the other.
-/

namespace Doctrina.Lib.PairingHeap

variable {β : Type*} {le : β → β → Prop}

section Sorted

variable {xs ys : List β} {i : Nat} (htotal : ∀ x y, le x y ∨ le y x)

include htotal

variable [DecidableRel le]

variable (htrans : ∀ x y z, le x y → le y z → le x z)

include htrans

end Sorted

namespace Forest

section Drain

variable (le) [DecidableRel le]

/-- The roots of a heap in the order in which they are popped. -/
def drain : Forest β → List β
  | nil => []
  | node x c _ => x :: drain (mergePairs le c)
  termination_by t => t.elements.length
  decreasing_by
    rw [(elements_mergePairs c).length_eq, elements_node, List.length_cons, List.length_append]
    omega

variable {le} {t : Forest β}

variable (htotal : ∀ x y, le x y ∨ le y x) (htrans : ∀ x y z, le x y → le y z → le x z)

include htotal htrans

end Drain

end Forest

end Doctrina.Lib.PairingHeap
