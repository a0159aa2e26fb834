import Doctrina.Fault
import Mathlib.Data.Finmap
/-!
# Objects behind pointers

A store holds the live objects of one type at their addresses.  A pointer is
`none` when it is NULL.
-/

namespace Doctrina

abbrev Addr : Type := UInt64

abbrev Store (β : Type) : Type := Finmap fun _ : Addr => β

namespace Store

variable {β : Type}

/-- The object behind a pointer. -/
def load (store : Store β) : Option Addr → Except Fault β
  | none => .error .nullPointer
  | some a =>
      match store.lookup a with
      | none => .error .badAddress
      | some object => .ok object

/-- An assignment to a field of the object behind a pointer. -/
def modify (store : Store β) (pointer : Option Addr) (f : β → β) :
    Except Fault (Store β) :=
  match pointer with
  | none => .error .nullPointer
  | some a =>
      match store.lookup a with
      | none => .error .badAddress
      | some object => .ok (store.insert a (f object))

/-- `free` of a pointer that is not NULL. -/
def free (store : Store β) (a : Addr) : Except Fault (Store β) :=
  match store.lookup a with
  | none => .error .badAddress
  | some _ => .ok (store.erase a)

/-- A bound for every recursion that visits live objects at most once. -/
def fuel (store : Store β) : Nat := store.keys.card + 1

variable {store : Store β} {a : Addr} {object : β}

theorem load_eq (h : store.lookup a = some object) : store.load (some a) = .ok object := by
  rw [load, h]

theorem modify_eq (h : store.lookup a = some object) (f : β → β) :
    store.modify (some a) f = .ok (store.insert a (f object)) := by
  rw [modify, h]

theorem free_eq (h : store.lookup a = some object) : store.free a = .ok (store.erase a) := by
  rw [free, h]

theorem lookup_insert_eq (store : Store β) (a : Addr) (object : β) (b : Addr) :
    (store.insert a object).lookup b = if b = a then some object else store.lookup b := by
  by_cases h : b = a
  · rw [if_pos h, h, Finmap.lookup_insert]
  · rw [if_neg h, Finmap.lookup_insert_of_ne store h]

theorem lookup_erase_eq (store : Store β) (a b : Addr) :
    (store.erase a).lookup b = if b = a then none else store.lookup b := by
  by_cases h : b = a
  · rw [if_pos h, h, Finmap.lookup_erase]
  · rw [if_neg h, Finmap.lookup_erase_ne h]

theorem insert_eq_self (h : store.lookup a = some object) : store.insert a object = store := by
  apply Finmap.ext_lookup
  intro b
  rw [lookup_insert_eq]
  split
  · next heq => rw [heq, h]
  · rfl

/-- As many different live addresses as there are leave the bound. -/
theorem length_lt_fuel {addrs : List Addr} (hnodup : addrs.Nodup)
    (hlive : ∀ a ∈ addrs, a ∈ store) : addrs.length < store.fuel := by
  have hsub : addrs.toFinset ⊆ store.keys := by
    intro a ha
    exact Finmap.mem_keys.mpr (hlive a (List.mem_toFinset.mp ha))
  have hcard := Finset.card_le_card hsub
  rw [List.toFinset_card_of_nodup hnodup] at hcard
  exact Nat.lt_succ_of_le hcard

end Store

end Doctrina
