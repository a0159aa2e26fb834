import Doctrina.Lib.Probing
import Mathlib.Data.Finmap
import Mathlib.Data.Finset.Card
/-!
# A table without tombstones as a dictionary of bounded size

A dictionary is a finite map from keys to values; it refuses a new key once it
has as many as its capacity.  `Represents` says that the slots of a table are
the entries of a dictionary, each where the search for its key ends.  Filling
the slot where a search ends, and writing to it again, are insertions.
Emptying it is a removal as long as the table stays direct.
-/

namespace Doctrina.Lib.Dictionary

open Doctrina.Lib.Probing

abbrev Dict (κ ν : Type*) : Type _ := Finmap fun _ : κ => ν

variable {ι κ ν : Type*} [DecidableEq κ]

/-- An entry is replaced, or added while there is room. -/
def put (capacity : ℕ) (d : Dict κ ν) (k : κ) (v : ν) : Dict κ ν :=
  if k ∈ d ∨ d.keys.card < capacity then d.insert k v else d

/-- The key that a slot holds. -/
def keysOf (t : ι → Option (κ × ν)) (j : ι) : Option κ := (t j).map Prod.fst

structure Represents (path : κ → List ι) (t : ι → Option (κ × ν)) (d : Dict κ ν) :
    Prop where
  direct : Direct (keysOf t) path
  lookup : ∀ k v, d.lookup k = some v ↔ ∃ j, t j = some (k, v)

section Keys

variable {t : ι → Option (κ × ν)} {j : ι} {k : κ} {v : ν}

omit [DecidableEq κ] in
theorem keysOf_eq_some_iff : keysOf t j = some k ↔ ∃ v, t j = some (k, v) := by
  rw [keysOf, Option.map_eq_some_iff]
  constructor
  · rintro ⟨⟨k', v⟩, hj, rfl⟩
    exact ⟨v, hj⟩
  · rintro ⟨v, hj⟩
    exact ⟨(k, v), hj, rfl⟩

omit [DecidableEq κ] in
theorem keysOf_eq_none_iff : keysOf t j = none ↔ t j = none := Option.map_eq_none_iff

omit [DecidableEq κ] in
theorem keysOf_update [DecidableEq ι] (t : ι → Option (κ × ν)) (j : ι)
    (entry : Option (κ × ν)) :
    keysOf (Function.update t j entry) = Function.update (keysOf t) j (entry.map Prod.fst) := by
  funext i
  rw [keysOf, Function.update_apply, Function.update_apply]
  split <;> rfl

end Keys

theorem represents_empty (path : κ → List ι) :
    Represents path (fun _ => none) (∅ : Dict κ ν) where
  direct := direct_empty
  lookup k v := by simp

namespace Represents

variable {path : κ → List ι} {t : ι → Option (κ × ν)} {d : Dict κ ν} {k : κ} {v : ν}
  {j : ι}

theorem mem_iff (h : Represents path t d) : k ∈ d ↔ ∃ j, keysOf t j = some k := by
  rw [Finmap.mem_iff]
  simp only [keysOf_eq_some_iff, h.lookup]
  exact exists_comm

theorem probe_cases (h : Represents path t d) (k : κ) :
    (k ∉ d ∧ probe (keysOf t) k (path k) = none) ∨
    (k ∉ d ∧ ∃ j, probe (keysOf t) k (path k) = some j ∧ t j = none) ∨
    ∃ j v, probe (keysOf t) k (path k) = some j ∧ t j = some (k, v) ∧ d.lookup k = some v := by
  by_cases hk : k ∈ d
  · obtain ⟨v, hv⟩ := Finmap.mem_iff.mp hk
    obtain ⟨j, hj⟩ := (h.lookup k v).mp hv
    exact .inr (.inr ⟨j, v, h.direct j k (keysOf_eq_some_iff.mpr ⟨v, hj⟩), hj, hv⟩)
  · cases hprobe : probe (keysOf t) k (path k) with
    | none => exact .inl ⟨hk, rfl⟩
    | some j =>
        refine .inr (.inl ⟨hk, j, rfl, ?_⟩)
        rcases (probe_eq_some_iff.mp hprobe).1 with hempty | hkey
        · exact keysOf_eq_none_iff.mp hempty
        · exact absurd (h.mem_iff.mpr ⟨j, hkey⟩) hk

variable [DecidableEq ι]

theorem lookup_write (h : Represents path t d) (hkey : ∀ i w, t i = some (k, w) → i = j)
    (hslot : ∀ k' w, t j = some (k', w) → k' = k) (v : ν) (k' : κ) (v' : ν) :
    (d.insert k v).lookup k' = some v' ↔
      ∃ i, Function.update t j (some (k, v)) i = some (k', v') := by
  by_cases hk : k' = k
  · subst hk
    rw [Finmap.lookup_insert, Option.some.injEq]
    constructor
    · rintro rfl
      exact ⟨j, by simp⟩
    · rintro ⟨i, hi⟩
      by_cases hij : i = j
      · rw [hij, Function.update_self, Option.some.injEq, Prod.mk.injEq] at hi
        exact hi.2
      · rw [Function.update_of_ne hij] at hi
        exact absurd (hkey i v' hi) hij
  · rw [Finmap.lookup_insert_of_ne d hk, h.lookup]
    apply exists_congr
    intro i
    by_cases hij : i = j
    · subst hij
      rw [Function.update_self]
      refine iff_of_false (fun hi => hk (hslot k' v' hi)) fun hi => ?_
      rw [Option.some.injEq, Prod.mk.injEq] at hi
      exact hk hi.1.symm
    · rw [Function.update_of_ne hij]

theorem fill (h : Represents path t d) (hprobe : probe (keysOf t) k (path k) = some j)
    (hempty : t j = none) (v : ν) :
    Represents path (Function.update t j (some (k, v))) (d.insert k v) where
  direct := by
    rw [keysOf_update]
    exact h.direct.fill hprobe (keysOf_eq_none_iff.mpr hempty)
  lookup := by
    refine h.lookup_write (fun i w hi => ?_) (fun k' w hj => ?_) v
    · have hi' := h.direct i k (keysOf_eq_some_iff.mpr ⟨w, hi⟩)
      exact Option.some.inj (hi'.symm.trans hprobe)
    · rw [hempty] at hj
      cases hj

theorem overwrite {w : ν} (h : Represents path t d) (hj : t j = some (k, w)) (v : ν) :
    Represents path (Function.update t j (some (k, v))) (d.insert k v) where
  direct := by
    have hkey : (some (k, v)).map Prod.fst = keysOf t j := by rw [keysOf, hj]; rfl
    rw [keysOf_update, hkey, Function.update_eq_self]
    exact h.direct
  lookup := by
    refine h.lookup_write (fun i w' hi => ?_) (fun k' w' hj' => ?_) v
    · exact h.direct.injective (keysOf_eq_some_iff.mpr ⟨w', hi⟩) (keysOf_eq_some_iff.mpr ⟨w, hj⟩)
    · rw [hj, Option.some.injEq, Prod.mk.injEq] at hj'
      exact hj'.1.symm

/-- Emptying a slot removes its entry and nothing else, exactly if no search
for another key passes through it. -/
theorem erase_iff (h : Represents path t d) (hj : t j = some (k, v)) :
    Represents path (Function.update t j none) (d.erase k) ↔
      ∀ i k', keysOf t i = some k' → k ≠ k' → j ∉ crossed (keysOf t) k' (path k') := by
  rw [← h.direct.erase_iff (keysOf_eq_some_iff.mpr ⟨v, hj⟩)]
  have hkeys : keysOf (Function.update t j none) = Function.update (keysOf t) j none :=
    keysOf_update t j none
  constructor
  · intro hafter
    rw [← hkeys]
    exact hafter.direct
  · intro hdirect
    refine ⟨by rwa [hkeys], fun k' v' => ?_⟩
    by_cases hk : k' = k
    · subst hk
      rw [Finmap.lookup_erase]
      refine iff_of_false (fun hnone => by cases hnone) ?_
      rintro ⟨i, hi⟩
      by_cases hij : i = j
      · rw [hij, Function.update_self] at hi
        cases hi
      · rw [Function.update_of_ne hij] at hi
        exact hij (h.direct.injective (keysOf_eq_some_iff.mpr ⟨v', hi⟩)
          (keysOf_eq_some_iff.mpr ⟨v, hj⟩))
    · rw [Finmap.lookup_erase_ne hk, h.lookup]
      apply exists_congr
      intro i
      by_cases hij : i = j
      · subst hij
        rw [Function.update_self, hj]
        refine iff_of_false (fun hi => ?_) fun hi => by cases hi
        rw [Option.some.injEq, Prod.mk.injEq] at hi
        exact hk hi.1.symm
      · rw [Function.update_of_ne hij]

omit [DecidableEq ι] in
theorem card_keys (h : Represents path t d) {slots : Finset ι}
    (hslots : ∀ j, t j ≠ none → j ∈ slots) :
    d.keys.card = (slots.filter fun j => (t j).isSome = true).card := by
  have hinj : Set.InjOn (keysOf t) (slots.filter fun j => (t j).isSome = true) := by
    intro i hi j _ heq
    rw [Finset.mem_coe, Finset.mem_filter, Option.isSome_iff_exists] at hi
    obtain ⟨⟨k, v⟩, hk⟩ := hi.2
    have hi' : keysOf t i = some k := keysOf_eq_some_iff.mpr ⟨v, hk⟩
    exact h.direct.injective hi' (heq ▸ hi')
  have himage : (slots.filter fun j => (t j).isSome = true).image (keysOf t) =
      d.keys.image some := by
    ext key
    rw [Finset.mem_image, Finset.mem_image]
    constructor
    · rintro ⟨j, hj, rfl⟩
      rw [Finset.mem_filter, Option.isSome_iff_exists] at hj
      obtain ⟨⟨k, v⟩, hk⟩ := hj.2
      have hj' : keysOf t j = some k := keysOf_eq_some_iff.mpr ⟨v, hk⟩
      exact ⟨k, Finmap.mem_keys.mpr (h.mem_iff.mpr ⟨j, hj'⟩), hj'.symm⟩
    · rintro ⟨k, hk, rfl⟩
      obtain ⟨j, hj⟩ := h.mem_iff.mp (Finmap.mem_keys.mp hk)
      obtain ⟨v, hv⟩ := keysOf_eq_some_iff.mp hj
      refine ⟨j, Finset.mem_filter.mpr ⟨hslots j (by simp [hv]), by simp [hv]⟩, hj⟩
  rw [← Finset.card_image_of_injOn hinj, himage,
    Finset.card_image_of_injective _ (Option.some_injective κ)]

omit [DecidableEq ι] in
/-- A search that comes to all slots ends at none of them exactly if the
dictionary is full and does not have the key. -/
theorem probe_eq_none_iff_full (h : Represents path t d) (slots : Finset ι)
    (hslots : ∀ j, t j ≠ none → j ∈ slots) (hpath : ∀ j, j ∈ path k ↔ j ∈ slots) :
    probe (keysOf t) k (path k) = none ↔ k ∉ d ∧ d.keys.card = slots.card := by
  rw [h.card_keys hslots, probe_eq_none_iff, Finset.card_filter_eq_iff, h.mem_iff]
  constructor
  · intro hpassed
    refine ⟨fun ⟨j, hj⟩ => ?_, fun j hj => ?_⟩
    · obtain ⟨v, hv⟩ := keysOf_eq_some_iff.mp hj
      exact (hpassed j ((hpath j).mpr (hslots j (by simp [hv])))).2 hj
    · have hne := (hpassed j ((hpath j).mpr hj)).1
      rw [Option.isSome_iff_ne_none]
      exact fun hnone => hne (keysOf_eq_none_iff.mpr hnone)
  · rintro ⟨hk, hall⟩ j hj
    refine ⟨fun hnone => ?_, fun hsome => hk ⟨j, hsome⟩⟩
    have hsome := hall j ((hpath j).mp hj)
    rw [keysOf_eq_none_iff.mp hnone] at hsome
    cases hsome

end Represents

end Doctrina.Lib.Dictionary
