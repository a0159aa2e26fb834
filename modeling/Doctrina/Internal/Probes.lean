import Mathlib.Data.List.Basic
import Mathlib.Data.Nat.ModEq
/-!
# The buckets a lookup visits

map.c and set.c repeat one loop header: `for (i = 0; i < self->size; i++)`
with `j = (key_hashed + i) % self->size`.  `probes` lists the `j` in order;
`key_hashed + i` wraps at 64 bits before the remainder is taken.  A loop that
returns from its body is `List.findSome?` over this list.
-/

namespace Doctrina.Internal

def probes (size hash : UInt64) : List Nat :=
  (List.range size.toNat).map fun i => ((hash + UInt64.ofNat i) % size).toNat

/-- With a wrap of the hash the same bucket can come twice. -/
example : probes 3 (0 - 1) = [0, 0, 1] := by decide

theorem lt_of_mem_probes {size hash : UInt64} {j : Nat} (h : j ∈ probes size hash) :
    j < size.toNat := by
  obtain ⟨i, hi, rfl⟩ := List.mem_map.mp h
  rw [UInt64.toNat_mod]
  exact Nat.mod_lt _ (Nat.zero_lt_of_lt (List.mem_range.mp hi))

/-- Where the numbers `key_hashed + i` go up by 1 modulo the size, every bucket
is visited. -/
theorem mem_probes_of_modEq {size hash : UInt64}
    (hsum : ∀ i < size.toNat,
      (hash + UInt64.ofNat i).toNat ≡ hash.toNat + i [MOD size.toNat])
    {j : Nat} (hj : j < size.toNat) : j ∈ probes size hash := by
  have hpos : 0 < size.toNat := Nat.zero_lt_of_lt hj
  have hrest := Nat.mod_lt hash.toNat hpos
  -- the distance from the first bucket visited on to `j`
  let i : Nat := (j + (size.toNat - hash.toNat % size.toNat)) % size.toNat
  have hi : i < size.toNat := Nat.mod_lt _ hpos
  refine List.mem_map.mpr ⟨i, List.mem_range.mpr hi, ?_⟩
  have htarget : hash.toNat + i ≡ j [MOD size.toNat] := by
    calc hash.toNat + i
        ≡ hash.toNat % size.toNat + (j + (size.toNat - hash.toNat % size.toNat))
            [MOD size.toNat] :=
          ((Nat.mod_modEq _ _).symm).add (Nat.mod_modEq _ _)
      _ = j + size.toNat := by omega
      _ ≡ j [MOD size.toNat] := Nat.add_modEq_right
  rw [UInt64.toNat_mod]
  exact Eq.trans ((hsum i hi).trans htarget) (Nat.mod_eq_of_lt hj)

theorem mem_probes {size : UInt64} (hsize : size.toNat ∣ 2 ^ 64) (hash : UInt64)
    {j : Nat} (hj : j < size.toNat) : j ∈ probes size hash := by
  have hword := size.toNat_lt
  refine mem_probes_of_modEq (fun i hi => ?_) hj
  rw [UInt64.toNat_add, UInt64.toNat_ofNat_of_lt' (hi.trans hword)]
  exact (Nat.mod_modEq _ _).of_dvd hsize

theorem mem_probes_of_le {size hash : UInt64} (hle : hash.toNat + size.toNat ≤ 2 ^ 64) {j : Nat}
    (hj : j < size.toNat) : j ∈ probes size hash := by
  have hword := size.toNat_lt
  refine mem_probes_of_modEq (fun i hi => ?_) hj
  rw [UInt64.toNat_add, UInt64.toNat_ofNat_of_lt' (hi.trans hword),
    Nat.mod_eq_of_lt (by omega)]

theorem sub_mod_place {n t : Nat} (hn : n < 2 ^ 64) (hpos : 0 < t) (ht : t < n) :
    (2 ^ 64 - t) % n + t = 2 ^ 64 % n ∨ (2 ^ 64 - t) % n + t = 2 ^ 64 % n + n := by
  have hsplit := Nat.div_add_mod (2 ^ 64) n
  have hrest := Nat.mod_lt (2 ^ 64) (Nat.zero_lt_of_lt ht)
  by_cases hle : t ≤ 2 ^ 64 % n
  · left
    have heq : 2 ^ 64 - t = n * (2 ^ 64 / n) + (2 ^ 64 % n - t) := by omega
    rw [heq, Nat.mul_add_mod, Nat.mod_eq_of_lt (by omega)]
    omega
  · right
    have hquot : 0 < 2 ^ 64 / n := Nat.div_pos hn.le (by omega)
    have hmul : n * (2 ^ 64 / n) = n * (2 ^ 64 / n - 1) + n := by
      rw [← Nat.mul_add_one, Nat.sub_add_cancel hquot]
    have heq : 2 ^ 64 - t = n * (2 ^ 64 / n - 1) + (n + 2 ^ 64 % n - t) := by omega
    rw [heq, Nat.mul_add_mod, Nat.mod_eq_of_lt (by omega)]
    omega

theorem mem_probes_cases {size hash : UInt64} (hwrap : 2 ^ 64 < hash.toNat + size.toNat) {j : Nat}
    (h : j ∈ probes size hash) :
    (∃ t, 0 < t ∧ t ≤ 2 ^ 64 - hash.toNat ∧
      (j + t = 2 ^ 64 % size.toNat ∨ j + t = 2 ^ 64 % size.toNat + size.toNat)) ∨
    j + (2 ^ 64 - hash.toNat) < size.toNat := by
  obtain ⟨i, hi, rfl⟩ := List.mem_map.mp h
  have hlt := List.mem_range.mp hi
  have hword := size.toNat_lt
  have hhash := hash.toNat_lt
  rw [UInt64.toNat_mod, UInt64.toNat_add, UInt64.toNat_ofNat_of_lt' (hlt.trans hword)]
  by_cases hbelow : hash.toNat + i < 2 ^ 64
  · left
    refine ⟨2 ^ 64 - hash.toNat - i, by omega, by omega, ?_⟩
    have heq : hash.toNat + i = 2 ^ 64 - (2 ^ 64 - hash.toNat - i) := by omega
    rw [Nat.mod_eq_of_lt hbelow, heq]
    exact sub_mod_place hword (by omega) (by omega)
  · right
    have heq : (hash.toNat + i) % 2 ^ 64 = i - (2 ^ 64 - hash.toNat) := by omega
    rw [heq, Nat.mod_eq_of_lt (by omega)]
    omega

/-- A hash that wraps in a table whose size does not divide `2 ^ 64` misses a
bucket. -/
theorem exists_not_mem_probes {size hash : UInt64} (hsize : ¬size.toNat ∣ 2 ^ 64)
    (hwrap : 2 ^ 64 < hash.toNat + size.toNat) :
    ∃ j < size.toNat, j ∉ probes size hash := by
  have hhash := hash.toNat_lt
  have hrest : 2 ^ 64 % size.toNat < size.toNat := Nat.mod_lt _ (by omega)
  have hpos : 0 < 2 ^ 64 % size.toNat := Nat.emod_pos_of_not_dvd hsize
  by_cases hle : 2 ^ 64 - hash.toNat ≤ 2 ^ 64 % size.toNat
  · refine ⟨size.toNat - 1, by omega, fun hmem => ?_⟩
    rcases mem_probes_cases hwrap hmem with ⟨t, _, _, heq | heq⟩ | hlt <;> omega
  · refine ⟨size.toNat + 2 ^ 64 % size.toNat - (2 ^ 64 - hash.toNat) - 1, by omega,
      fun hmem => ?_⟩
    rcases mem_probes_cases hwrap hmem with ⟨t, _, _, heq | heq⟩ | hlt <;> omega

/-- The loop visits every bucket exactly if the size divides `2 ^ 64` or the
hash does not wrap. -/
theorem forall_mem_probes_iff (size hash : UInt64) :
    (∀ j < size.toNat, j ∈ probes size hash) ↔
      size.toNat ∣ 2 ^ 64 ∨ hash.toNat + size.toNat ≤ 2 ^ 64 := by
  constructor
  · intro h
    by_contra hnot
    rw [not_or, Nat.not_le] at hnot
    obtain ⟨j, hj, hmiss⟩ := exists_not_mem_probes hnot.1 hnot.2
    exact hmiss (h j hj)
  · rintro (hsize | hle) j hj
    · exact mem_probes hsize hash hj
    · exact mem_probes_of_le hle hj

end Doctrina.Internal
