import Mathlib.Data.Finmap
import Mathlib.Data.List.Flatten
import Mathlib.Data.List.Perm.Basic
/-!
# A memory as a list of cells

`Exactly memory cells` says that the memory consists of the cells of the list,
in any order, and of nothing else.  A function works on the cells at the head
of the list and leaves the tail as it is, whatever that is; the tail is the
frame.  Nothing is lost and nothing is shared by construction: the addresses of
the cells are distinct and exhaust the memory.
-/

namespace Doctrina.Lib.Cells

variable {κ β γ : Type*}

section Exactly

variable [DecidableEq κ]

structure Exactly (memory : Finmap fun _ : κ => β) (cells : List (κ × β)) : Prop where
  nodup : (cells.map Prod.fst).Nodup
  lookup : ∀ a v, memory.lookup a = some v ↔ (a, v) ∈ cells

namespace Exactly

variable {memory : Finmap fun _ : κ => β} {cells cells' : List (κ × β)} {a b : κ} {v w : β}

theorem empty : Exactly (∅ : Finmap fun _ : κ => β) [] := by
  refine ⟨List.nodup_nil, fun a v => ?_⟩
  simp

theorem eq_empty (h : Exactly memory []) : memory = ∅ := by
  apply Finmap.ext_lookup
  intro a
  rw [Finmap.lookup_empty, ← Option.not_isSome_iff_eq_none, Option.isSome_iff_exists]
  rintro ⟨v, hv⟩
  exact List.not_mem_nil ((h.lookup a v).mp hv)

theorem perm (h : Exactly memory cells) (hperm : cells.Perm cells') : Exactly memory cells' where
  nodup := (hperm.map Prod.fst).nodup_iff.mp h.nodup
  lookup a v := (h.lookup a v).trans hperm.mem_iff

theorem lookup_head (h : Exactly memory ((a, v) :: cells)) : memory.lookup a = some v :=
  (h.lookup a v).mpr List.mem_cons_self

theorem mem_iff (h : Exactly memory cells) : a ∈ memory ↔ a ∈ cells.map Prod.fst := by
  rw [Finmap.mem_iff, List.mem_map]
  constructor
  · rintro ⟨v, hv⟩
    exact ⟨(a, v), (h.lookup a v).mp hv, rfl⟩
  · rintro ⟨⟨b, v⟩, hmem, rfl⟩
    exact ⟨v, (h.lookup b v).mpr hmem⟩

theorem not_mem_tail (h : Exactly memory ((a, v) :: cells)) : a ∉ cells.map Prod.fst :=
  (List.nodup_cons.mp h.nodup).1

theorem insert (h : Exactly memory cells) (hfresh : a ∉ memory) (v : β) :
    Exactly (memory.insert a v) ((a, v) :: cells) where
  nodup := by
    rw [List.map_cons, List.nodup_cons]
    exact ⟨fun hmem => hfresh (h.mem_iff.mpr hmem), h.nodup⟩
  lookup b w := by
    rw [List.mem_cons, Prod.mk.injEq]
    by_cases heq : b = a
    · subst heq
      rw [Finmap.lookup_insert]
      have hnot : (b, w) ∉ cells := fun hmem =>
        hfresh (Finmap.mem_of_lookup_eq_some ((h.lookup b w).mpr hmem))
      simp [hnot, eq_comm]
    · rw [Finmap.lookup_insert_of_ne memory heq, h.lookup]
      simp [heq]

theorem erase (h : Exactly memory ((a, v) :: cells)) : Exactly (memory.erase a) cells where
  nodup := (List.nodup_cons.mp h.nodup).2
  lookup b w := by
    by_cases heq : b = a
    · subst heq
      rw [Finmap.lookup_erase]
      have hnot : (b, w) ∉ cells := fun hmem =>
        h.not_mem_tail (List.mem_map.mpr ⟨(b, w), hmem, rfl⟩)
      simp [hnot]
    · rw [Finmap.lookup_erase_ne heq, h.lookup, List.mem_cons, Prod.mk.injEq]
      simp [heq]

theorem assign (h : Exactly memory ((a, v) :: cells)) (w : β) :
    Exactly (memory.insert a w) ((a, w) :: cells) := by
  have herase := h.erase.insert Finmap.notMem_erase_self w
  refine ⟨herase.nodup, fun b u => ?_⟩
  rw [← herase.lookup]
  by_cases heq : b = a
  · subst heq
    rw [Finmap.lookup_insert, Finmap.lookup_insert]
  · rw [Finmap.lookup_insert_of_ne _ heq, Finmap.lookup_insert_of_ne _ heq,
      Finmap.lookup_erase_ne heq]

/-- The cells of a memory are determined up to their order. -/
theorem perm_of (h : Exactly memory cells) (h' : Exactly memory cells') : cells.Perm cells' := by
  rw [List.perm_ext_iff_of_nodup h.nodup.of_map h'.nodup.of_map]
  rintro ⟨a, v⟩
  rw [← h.lookup, h'.lookup]

theorem unique {memory' : Finmap fun _ : κ => β} (h : Exactly memory cells)
    (h' : Exactly memory' cells) : memory = memory' := by
  apply Finmap.ext_lookup
  intro a
  apply Option.ext
  intro v
  rw [h.lookup, h'.lookup]

theorem insert_of_ne (hfresh : b ∉ memory) (hne : b ≠ a) : b ∉ memory.insert a v := by
  rw [Finmap.mem_insert]
  rintro (heq | hmem)
  · exact hne heq
  · exact hfresh hmem

end Exactly

end Exactly

section Places

variable {places : List γ} {i : ℕ} {x : γ}

theorem flatMap_perm (f : γ → List (κ × β)) (hx : places[i]? = some x) :
    (places.flatMap f).Perm (f x ++ (places.eraseIdx i).flatMap f) := by
  obtain ⟨hi, rfl⟩ := List.getElem?_eq_some_iff.mp hx
  calc places.flatMap f
      |>.Perm ((places[i] :: places.eraseIdx i).flatMap f) :=
        (List.getElem_cons_eraseIdx_perm hi).symm.flatMap_right f
    _ = f places[i] ++ (places.eraseIdx i).flatMap f := List.flatMap_cons

end Places

/-- The items of the list, by their keys, are the entries of the map. -/
def Lists {ν : Type*} (key : γ → κ) (value : γ → ν) (items : List γ) (map : κ → Option ν) : Prop :=
  ∀ a v, map a = some v ↔ ∃ item ∈ items, key item = a ∧ value item = v

namespace Lists

variable {ν : Type*} {key : γ → κ} {value : γ → ν} {item : γ}
  {items items' : List γ} {map : κ → Option ν} {a : κ} {v : ν}

theorem nil : Lists key value [] fun _ => none := fun a v => by simp

theorem eq_nil (h : Lists key value items map) (hmap : ∀ a, map a = none) : items = [] := by
  rw [List.eq_nil_iff_forall_not_mem]
  intro item hmem
  have hsome := (h (key item) (value item)).mpr ⟨item, hmem, rfl, rfl⟩
  rw [hmap] at hsome
  cases hsome

theorem perm (h : Lists key value items map) (hperm : items.Perm items') :
    Lists key value items' map := fun a v => by
  simp only [h a v, hperm.mem_iff]

theorem front (h : Lists key value items map) (ha : map a = some v) : ∃ item rest,
    items.Perm (item :: rest) ∧ key item = a ∧ value item = v := by
  obtain ⟨item, hmem, hkey, hvalue⟩ := (h a v).mp ha
  obtain ⟨before, after, rfl⟩ := List.append_of_mem hmem
  exact ⟨item, before ++ after, List.perm_middle, hkey, hvalue⟩

variable [DecidableEq κ]

theorem cons (h : Lists key value items map) (item : γ) (hkey : key item ∉ items.map key) :
    Lists key value (item :: items) (Function.update map (key item) (some (value item))) := by
  intro a v
  by_cases ha : a = key item
  · subst ha
    rw [Function.update_self, Option.some.injEq]
    constructor
    · intro heq
      exact ⟨item, List.mem_cons_self, rfl, heq⟩
    · rintro ⟨other, hmem, heq, hvalue⟩
      rcases List.mem_cons.mp hmem with hself | hmem
      · rwa [hself] at hvalue
      · exact absurd (List.mem_map.mpr ⟨other, hmem, heq⟩) hkey
  · rw [Function.update_of_ne ha, h]
    simp [Ne.symm ha]

theorem tail (h : Lists key value (item :: items) map) (hkey : key item ∉ items.map key) :
    Lists key value items (Function.update map (key item) none) := by
  intro a v
  by_cases ha : a = key item
  · subst ha
    rw [Function.update_self]
    constructor
    · intro hnone
      cases hnone
    · rintro ⟨other, hmem, heq, _⟩
      exact absurd (List.mem_map.mpr ⟨other, hmem, heq⟩) hkey
  · rw [Function.update_of_ne ha, h]
    simp [Ne.symm ha]

end Lists

end Doctrina.Lib.Cells
