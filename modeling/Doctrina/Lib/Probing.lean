import Mathlib.Data.List.TakeWhile
import Mathlib.Tactic.Tauto
import Mathlib.Logic.Function.Basic
/-!
# Open addressing without tombstones

A table assigns to each slot the key stored there, if any.  A search for a key
follows the key's path of slots and stops at the first slot that is empty or
holds the key.  The lemmas say how filling and emptying one slot changes which
keys a search finds; `Direct` is the invariant of tables that are only filled.
-/

namespace Doctrina.Lib.Probing

variable {ι κ : Type*}

/-- The slot holds another key, so a search for `k` goes on. -/
def Passed (t : ι → Option κ) (k : κ) (j : ι) : Prop := t j ≠ none ∧ t j ≠ some k

/-- A search for `k` along `path` that goes on at the slot `j` finds `k`. -/
def FoundPast (t : ι → Option κ) (k : κ) (j : ι) (path : List ι) : Prop :=
  ∃ before i after, path = before ++ i :: after ∧
    (∀ x ∈ before, Passed t k x ∨ x = j) ∧ t i = some k

theorem not_passed_iff {t : ι → Option κ} {k : κ} {j : ι} :
    ¬Passed t k j ↔ t j = none ∨ t j = some k := by
  unfold Passed
  tauto

section Search

variable [DecidableEq κ]

instance (t : ι → Option κ) (k : κ) : DecidablePred (Passed t k) := fun _ =>
  inferInstanceAs (Decidable (_ ∧ _))

/-- The slot where a search for `k` along `path` stops. -/
def probe (t : ι → Option κ) (k : κ) (path : List ι) : Option ι :=
  path.find? fun j => !decide (Passed t k j)

/-- The slots a search for `k` along `path` passes before it stops. -/
def crossed (t : ι → Option κ) (k : κ) (path : List ι) : List ι :=
  path.takeWhile fun j => decide (Passed t k j)

/-- A search for `k` along `path` stops at a slot that holds `k`. -/
def Found (t : ι → Option κ) (k : κ) (path : List ι) : Prop :=
  ∃ j, probe t k path = some j ∧ t j = some k

theorem findSome?_eq_probe {ρ : Type*} {t : ι → Option κ} {k : κ} {path : List ι}
    {body : ι → Option ρ} (h : ∀ j, body j = none ↔ Passed t k j) :
    path.findSome? body = (probe t k path).bind body := by
  induction path with
  | nil => rfl
  | cons j path ih =>
      rw [probe, List.findSome?_cons, List.find?_cons]
      by_cases hj : Passed t k j
      · rw [(h j).mpr hj]
        simpa [hj, probe] using ih
      · cases hbody : body j with
        | none => exact absurd ((h j).mp hbody) hj
        | some r => simp [hj, hbody]

theorem probe_eq_some_iff {t : ι → Option κ} {k : κ} {path : List ι} {j : ι} :
    probe t k path = some j ↔
      (t j = none ∨ t j = some k) ∧
        ∃ before after, path = before ++ j :: after ∧ ∀ i ∈ before, Passed t k i := by
  rw [probe, List.find?_eq_some_iff_append, ← not_passed_iff]
  simp

theorem probe_eq_none_iff {t : ι → Option κ} {k : κ} {path : List ι} :
    probe t k path = none ↔ ∀ j ∈ path, Passed t k j := by
  simp [probe]

theorem found_iff {t : ι → Option κ} {k : κ} {path : List ι} :
    Found t k path ↔ ∃ before j after, path = before ++ j :: after ∧
      (∀ i ∈ before, Passed t k i) ∧ t j = some k := by
  constructor
  · rintro ⟨j, hprobe, hj⟩
    obtain ⟨_, before, after, hpath, hbefore⟩ := probe_eq_some_iff.mp hprobe
    exact ⟨before, j, after, hpath, hbefore, hj⟩
  · rintro ⟨before, j, after, hpath, hbefore, hj⟩
    exact ⟨j, probe_eq_some_iff.mpr ⟨.inr hj, before, after, hpath, hbefore⟩, hj⟩

theorem passed_of_mem_crossed {t : ι → Option κ} {k : κ} {path : List ι} {j : ι}
    (h : j ∈ crossed t k path) : Passed t k j := by
  simpa using List.mem_takeWhile_imp h

theorem crossed_append {t : ι → Option κ} {k : κ} {before after : List ι} {j : ι}
    (hbefore : ∀ i ∈ before, Passed t k i) (hj : ¬Passed t k j) :
    crossed t k (before ++ j :: after) = before := by
  rw [crossed, List.takeWhile_append_of_pos (by simpa using hbefore)]
  simp [hj]

end Search

/-! ## Emptying a slot -/

theorem slot_ne {t : ι → Option κ} {k k' : κ} {i j : ι} (hj : t j = some k)
    (hi : t i = some k') (hne : k ≠ k') : i ≠ j := by
  intro heq
  rw [heq, hj] at hi
  exact hne (Option.some.inj hi)

section Erase

variable [DecidableEq ι] {t : ι → Option κ} {k : κ} {j : ι}

theorem passed_erase_iff {k' : κ} {i : ι} :
    Passed (Function.update t j none) k' i ↔ Passed t k' i ∧ i ≠ j := by
  unfold Passed
  by_cases h : i = j
  · subst h
    simp
  · simp [h]

theorem passed_erase_of_not_mem {k' : κ} {before : List ι}
    (hbefore : ∀ i ∈ before, Passed t k' i) (hj : j ∉ before) :
    ∀ i ∈ before, Passed (Function.update t j none) k' i := by
  intro i hi
  apply passed_erase_iff.mpr
  exact ⟨hbefore i hi, fun heq => hj (heq ▸ hi)⟩

variable [DecidableEq κ]

/-- Emptying a slot of another key loses exactly the keys whose search passed
through it. -/
theorem found_erase_iff {k' : κ} {path : List ι} (hj : t j = some k) (hne : k ≠ k') :
    Found (Function.update t j none) k' path ↔
      Found t k' path ∧ j ∉ crossed t k' path := by
  rw [found_iff, found_iff]
  constructor
  · rintro ⟨before, i, after, rfl, hbefore, hi⟩
    have hij : i ≠ j := by
      rintro rfl
      simp at hi
    rw [Function.update_of_ne hij] at hi
    have hpassed : ∀ x ∈ before, Passed t k' x := fun x hx =>
      (passed_erase_iff.mp (hbefore x hx)).1
    refine ⟨⟨before, i, after, rfl, hpassed, hi⟩, ?_⟩
    rw [crossed_append hpassed (not_passed_iff.mpr (.inr hi))]
    exact fun hmem => (passed_erase_iff.mp (hbefore j hmem)).2 rfl
  · rintro ⟨⟨before, i, after, rfl, hbefore, hi⟩, hcrossed⟩
    rw [crossed_append hbefore (not_passed_iff.mpr (.inr hi))] at hcrossed
    refine ⟨before, i, after, rfl, passed_erase_of_not_mem hbefore hcrossed, ?_⟩
    rw [Function.update_of_ne (slot_ne hj hi hne)]
    exact hi

theorem probe_erase {k' : κ} {path : List ι} (hj : t j = some k) (hne : k ≠ k')
    (hfound : Found t k' path) (hcrossed : j ∉ crossed t k' path) :
    probe (Function.update t j none) k' path = probe t k' path := by
  obtain ⟨before, i, after, rfl, hbefore, hi⟩ := found_iff.mp hfound
  rw [crossed_append hbefore (not_passed_iff.mpr (.inr hi))] at hcrossed
  have hold : probe t k' (before ++ i :: after) = some i :=
    probe_eq_some_iff.mpr ⟨.inr hi, before, after, rfl, hbefore⟩
  rw [hold, probe_eq_some_iff, Function.update_of_ne (slot_ne hj hi hne)]
  exact ⟨.inr hi, before, after, rfl, passed_erase_of_not_mem hbefore hcrossed⟩

theorem not_found_erase_self {path : List ι} (hprobe : probe t k path = some j) :
    ¬Found (Function.update t j none) k path := by
  rintro ⟨i, hi, hik⟩
  obtain ⟨_, before, after, rfl, hbefore⟩ := probe_eq_some_iff.mp hprobe
  have hstop : probe (Function.update t j none) k (before ++ j :: after) = some j := by
    by_cases hmem : j ∈ before
    · exact absurd (hbefore j hmem) (not_passed_iff.mpr (probe_eq_some_iff.mp hprobe).1)
    · apply probe_eq_some_iff.mpr
      exact ⟨.inl (by simp), before, after, rfl, passed_erase_of_not_mem hbefore hmem⟩
  rw [hstop, Option.some.injEq] at hi
  subst hi
  simp at hik

end Erase

/-! ## Filling an empty slot -/

section Fill

variable [DecidableEq ι] {t : ι → Option κ} {k : κ} {j : ι}

theorem passed_fill_iff {k' : κ} {i : ι} (hne : k ≠ k') :
    Passed (Function.update t j (some k)) k' i ↔ Passed t k' i ∨ i = j := by
  unfold Passed
  by_cases h : i = j
  · subst h
    simpa using hne
  · simp [h]

variable [DecidableEq κ]

theorem found_fill_iff {k' : κ} {path : List ι} (hne : k ≠ k') (hj : t j = none) :
    Found (Function.update t j (some k)) k' path ↔ FoundPast t k' j path := by
  rw [found_iff]
  constructor
  · rintro ⟨before, i, after, hpath, hbefore, hi⟩
    refine ⟨before, i, after, hpath, fun x hx => (passed_fill_iff hne).mp (hbefore x hx), ?_⟩
    by_cases hij : i = j
    · subst hij
      rw [Function.update_self, Option.some.injEq] at hi
      exact absurd hi hne
    · rwa [Function.update_of_ne hij] at hi
  · rintro ⟨before, i, after, hpath, hbefore, hi⟩
    refine ⟨before, i, after, hpath, fun x hx => (passed_fill_iff hne).mpr (hbefore x hx), ?_⟩
    have hij : i ≠ j := by
      rintro rfl
      rw [hj] at hi
      exact absurd hi (by simp)
    rwa [Function.update_of_ne hij]

theorem probe_fill_self {path : List ι} (hprobe : probe t k path = some j) :
    probe (Function.update t j (some k)) k path = some j := by
  obtain ⟨hstop, before, after, rfl, hbefore⟩ := probe_eq_some_iff.mp hprobe
  refine probe_eq_some_iff.mpr ⟨.inr (by simp), before, after, rfl, fun x hx => ?_⟩
  have hx' := hbefore x hx
  have hxj : x ≠ j := by
    rintro rfl
    exact not_passed_iff.mpr hstop hx'
  rw [Passed, Function.update_of_ne hxj]
  exact hx'

end Fill

/-! ## Tables that are only filled -/

section Direct

variable [DecidableEq κ]

/-- Every stored key is found, at the slot where it is stored. -/
def Direct (t : ι → Option κ) (path : κ → List ι) : Prop :=
  ∀ j k, t j = some k → probe t k (path k) = some j

variable {t : ι → Option κ} {path : κ → List ι}

theorem direct_empty : Direct (fun _ => none : ι → Option κ) path := by
  intro j k h
  cases h

theorem Direct.injective (h : Direct t path) {i j : ι} {k : κ} (hi : t i = some k)
    (hj : t j = some k) : i = j :=
  Option.some.inj ((h i k hi).symm.trans (h j k hj))

theorem Direct.found_iff (h : Direct t path) {k : κ} :
    Found t k (path k) ↔ ∃ j, t j = some k := by
  constructor
  · rintro ⟨j, _, hj⟩
    exact ⟨j, hj⟩
  · rintro ⟨j, hj⟩
    exact ⟨j, h j k hj, hj⟩

theorem Direct.fill [DecidableEq ι] (h : Direct t path) {j : ι} {k : κ}
    (hprobe : probe t k (path k) = some j) (hj : t j = none) :
    Direct (Function.update t j (some k)) path := by
  intro i k' hi
  by_cases hij : i = j
  · subst hij
    rw [Function.update_self, Option.some.injEq] at hi
    subst hi
    exact probe_fill_self hprobe
  · rw [Function.update_of_ne hij] at hi
    have hne : k ≠ k' := by
      rintro rfl
      exact hij (Option.some.inj ((h i k hi).symm.trans hprobe))
    obtain ⟨_, before, after, hpath, hbefore⟩ := probe_eq_some_iff.mp (h i k' hi)
    refine probe_eq_some_iff.mpr ⟨.inr ?_, before, after, hpath, fun x hx => ?_⟩
    · rwa [Function.update_of_ne hij]
    · exact (passed_fill_iff hne).mpr (.inl (hbefore x hx))

/-- Emptying a slot keeps the table direct exactly if no search for another
stored key passes through it. -/
theorem Direct.erase_iff [DecidableEq ι] (h : Direct t path) {j : ι} {k : κ}
    (hj : t j = some k) :
    Direct (Function.update t j none) path ↔
      ∀ i k', t i = some k' → k ≠ k' → j ∉ crossed t k' (path k') := by
  constructor
  · intro hafter i k' hi hne
    have hij := slot_ne hj hi hne
    have hi' : Function.update t j none i = some k' := by rwa [Function.update_of_ne hij]
    exact ((found_erase_iff hj hne).mp ⟨i, hafter i k' hi', hi'⟩).2
  · intro hcrossed i k' hi'
    have hij : i ≠ j := by
      intro heq
      rw [heq, Function.update_self] at hi'
      cases hi'
    have hi : t i = some k' := by rwa [Function.update_of_ne hij] at hi'
    have hne : k ≠ k' := by
      intro heq
      subst heq
      exact hij (h.injective hi hj)
    rw [probe_erase hj hne ⟨i, h i k' hi, hi⟩ (hcrossed i k' hi hne)]
    exact h i k' hi

end Direct

end Doctrina.Lib.Probing
