import Doctrina.Internal.HashRange
import Doctrina.Map.Delete
/-!
# When a store finds no bucket

`mapSet` returns -1 when no bucket on its way is empty or holds the key.  That
is a full table if its way leads through all of them; `key_hashed + i` may wrap
at 64 bits before the remainder is taken, and a table whose size does not
divide `2 ^ 64` is then not visited whole.
-/

namespace Doctrina.Map

open Doctrina.Internal Doctrina.Lib.Execution Doctrina.Lib.Probing

section Operations

variable (hash : List UInt8 → UInt64 → UInt64)

/-- A store of the value is refused exactly if every bucket holds some other
key. -/
def RefusedOnlyFull (self : MapT) (key value : List UInt8) : Prop :=
  (∃ after, mapSet hash self key value = .ok (after, -1)) ↔
    ∀ j < self.size.toNat, ∃ bucket, self.bucket j = some bucket ∧ bucket.bytes ≠ key

variable {hash} {self : MapT} {key value : List UInt8}

theorem mapSet_refused_iff :
    (∃ after, mapSet hash self key value = .ok (after, -1)) ↔ stop hash self key = none := by
  rcases mapSet_cases hash self key value with
    ⟨hstop, heq⟩ | ⟨j, hstop, _, heq⟩ | ⟨j, bucket, hstop, _, heq⟩
  · simp [hstop, heq]
  · simp [hstop, heq]
  · rw [hstop, heq]
    refine iff_of_false ?_ (Option.some_ne_none j)
    rintro ⟨after, hafter⟩
    obtain ⟨_, _, hpair⟩ := Except.map_eq_ok hafter
    exact absurd (Prod.mk.inj hpair).2 (by decide)

theorem passed_iff {j : Nat} : Passed (self.keys Bucket.bytes) key j ↔
    ∃ bucket, self.bucket j = some bucket ∧ bucket.bytes ≠ key := by
  cases hbucket : self.bucket j with
  | none => simp [Passed, Table.keys, hbucket]
  | some bucket => simp [Passed, Table.keys, hbucket]

theorem refusedOnlyFull_of_covered
    (hcover : ∀ j < self.size.toNat, j ∈ probes self.size (hash key SEED)) :
    RefusedOnlyFull hash self key value := by
  rw [RefusedOnlyFull, mapSet_refused_iff, stop, Table.stop, probe_eq_none_iff]
  constructor
  · intro h j hj
    exact passed_iff.mp (h j (hcover j hj))
  · intro h j hj
    exact passed_iff.mpr (h j (lt_of_mem_probes hj))

theorem size_step {op : Op} {after : MapT} (h : step hash self op = .ok after) :
    after.size = self.size := by
  cases op with
  | set key value =>
      obtain ⟨result, hset, rfl⟩ := Except.map_eq_ok h
      rcases mapSet_cases hash self key value with
        ⟨_, heq⟩ | ⟨j, _, _, heq⟩ | ⟨j, bucket, _, _, heq⟩
      · rw [heq] at hset
        cases hset
        rfl
      · rw [heq] at hset
        cases hset
        rfl
      · rw [heq] at hset
        obtain ⟨_, _, rfl⟩ := Except.map_eq_ok hset
        rfl
  | del key =>
      cases h
      rcases mapDel_cases hash self key with ⟨_, heq⟩ | ⟨j, bucket, _, _, heq⟩
      · rw [heq]
      · rw [heq]
        rfl

theorem size_foldlM {ops : List Op} {after : MapT} (h : ops.foldlM (step hash) self = .ok after) :
    after.size = self.size := by
  induction ops generalizing self with
  | nil =>
      cases h
      rfl
  | cons op ops ih =>
      obtain ⟨next, hnext, hrest⟩ := foldlM_cons_ok.mp h
      rw [ih hrest, size_step hnext]

/-! ## Filling all buckets but one -/

theorem probes_eq_cons {size : UInt64} (hsize : 0 < size.toNat) (hash : UInt64) :
    ∃ rest, probes size hash = (hash % size).toNat :: rest := by
  obtain ⟨n, hn⟩ := Nat.exists_eq_add_of_lt hsize
  rw [probes, hn, Nat.zero_add, List.range_succ_eq_map, List.map_cons]
  refine ⟨_, congrArg (· :: _) ?_⟩
  change ((hash + 0) % size).toNat = (hash % size).toNat
  rw [UInt64.add_zero]

theorem mapSet_of_first_empty (value : List UInt8) {p : Nat} (hp : p < self.size.toNat)
    (hfirst : (hash key SEED).toNat = p) (hempty : self.bucket p = none) :
    mapSet hash self key value = .ok (self.put p (some (bucketNew key value)), 0) := by
  have hplace : (hash key SEED % self.size).toNat = p := by
    rw [UInt64.toNat_mod, hfirst, Nat.mod_eq_of_lt hp]
  have hstop : stop hash self key = some p := by
    obtain ⟨rest, hprobes⟩ := probes_eq_cons (Nat.zero_lt_of_lt hp) (hash key SEED)
    rw [stop, Table.stop, hprobes, hplace, probe_eq_some_iff]
    exact ⟨.inl (Table.keys_eq_none_iff.mpr hempty), [], rest, rfl, by simp⟩
  rcases mapSet_cases hash self key value with
    ⟨hnone, _⟩ | ⟨j, hj, _, heq⟩ | ⟨j, bucket, hj, hbucket, _⟩
  · rw [hstop] at hnone
    cases hnone
  · rw [hstop, Option.some.injEq] at hj
    rw [heq, hj]
  · rw [hstop, Option.some.injEq] at hj
    rw [← hj, hempty] at hbucket
    cases hbucket

theorem foldlM_fill (keyAt : Nat → List UInt8) (value : List UInt8) {places : List Nat}
    (hnodup : places.Nodup) (hplaces : ∀ p ∈ places, p < self.size.toNat)
    (hkeys : ∀ p ∈ places, (hash (keyAt p) SEED).toNat = p)
    (hempty : ∀ p ∈ places, self.bucket p = none) :
    ∃ after, (places.map fun p => Op.set (keyAt p) value).foldlM (step hash) self = .ok after ∧
      after.size = self.size ∧
      (∀ p ∈ places, after.bucket p = some (bucketNew (keyAt p) value)) ∧
      ∀ p, p ∉ places → after.bucket p = self.bucket p := by
  induction places generalizing self with
  | nil => exact ⟨self, rfl, rfl, by simp, fun _ _ => rfl⟩
  | cons p places ih =>
      obtain ⟨hp, hrest⟩ := List.nodup_cons.mp hnodup
      have hlt := hplaces p (by simp)
      have hset := mapSet_of_first_empty value hlt (hkeys p (by simp)) (hempty p (by simp))
      have hbucket := Table.bucket_put self hlt (some (bucketNew (keyAt p) value))
      obtain ⟨after, hrun, hsize, hfilled, hkept⟩ :=
        @ih (self.put p (some (bucketNew (keyAt p) value))) hrest
          (fun q hq => hplaces q (by simp [hq])) (fun q hq => hkeys q (by simp [hq]))
          (fun q hq => by
            have hne : q ≠ p := fun heq => hp (heq ▸ hq)
            rw [hbucket, if_neg hne]
            exact hempty q (by simp [hq]))
      refine ⟨after, ?_, hsize, ?_, ?_⟩
      · rw [List.map_cons]
        apply foldlM_cons_ok.mpr
        refine ⟨_, ?_, hrun⟩
        rw [step, hset]
        rfl
      · intro q hq
        rcases List.mem_cons.mp hq with rfl | hq
        · rw [hkept q hp, hbucket, if_pos rfl]
        · exact hfilled q hq
      · intro q hq
        rw [List.mem_cons, not_or] at hq
        rw [hkept q hq.2, hbucket, if_neg hq.1]

end Operations

/-- A bucket off the way of a key stays empty while the others are filled with
other keys, and then the key is refused. -/
theorem exists_refused_not_full {size : UInt64} {key : List UInt8} {j : Nat}
    (hj : j < size.toNat) (hmiss : j ∉ probes size (xxh3 key SEED)) :
    ∃ (ops : List Op) (self : MapT), (∀ op ∈ ops, op.Uniform 1) ∧
      ops.foldlM (step xxh3) (mapNew size) = .ok self ∧
      ¬RefusedOnlyFull xxh3 self key [0] := by
  choose keyAt hne hother hhash using fun p : Nat => exists_xxh3_ne SEED (UInt64.ofNat p) key
  have hword := size.toNat_lt
  let places := (List.range size.toNat).filter (· ≠ j)
  have hplaces : ∀ p, p ∈ places ↔ p < size.toNat ∧ p ≠ j := by
    intro p
    simp [places]
  have hnodup : places.Nodup := List.nodup_range.filter _
  have hbounds : ∀ p ∈ places, p < (mapNew size).size.toNat := fun p hp =>
    ((hplaces p).mp hp).1
  have hfirst : ∀ p ∈ places, (xxh3 (keyAt p) SEED).toNat = p := by
    intro p hp
    rw [hhash, UInt64.toNat_ofNat_of_lt' ((hbounds p hp).trans hword)]
  obtain ⟨self, hrun, hsize, hfilled, hkept⟩ :=
    foldlM_fill keyAt [0] hnodup hbounds hfirst (fun p _ => Table.bucket_new size p)
  refine ⟨_, self, ?_, hrun, ?_⟩
  · intro op hop
    obtain ⟨p, _, rfl⟩ := List.mem_map.mp hop
    exact ⟨hne p, rfl⟩
  · have hstop : stop xxh3 self key = none := by
      rw [stop, Table.stop, probe_eq_none_iff, hsize]
      intro p hp
      have hpj : p ≠ j := fun heq => hmiss (heq ▸ hp)
      apply passed_iff.mpr
      refine ⟨_, hfilled p ((hplaces p).mpr ⟨lt_of_mem_probes hp, hpj⟩), ?_⟩
      rw [bytes_bucketNew]
      exact hother p
    have hempty : self.bucket j = none := by
      rw [hkept j (fun hmem => ((hplaces j).mp hmem).2 rfl)]
      exact Table.bucket_new size j
    intro h
    obtain ⟨bucket, hbucket, _⟩ := h.mp (mapSet_refused_iff.mpr hstop) j (by rw [hsize]; exact hj)
    rw [hempty] at hbucket
    cases hbucket

/-- For a size and a key: in every state reached by stores and deletions a
store of the key is refused exactly if every bucket holds another key, if and
only if the size divides `2 ^ 64` or the hash of the key lies at least the size
below `2 ^ 64`; and these are the cases in which the way of the key leads
through every bucket. -/
theorem refused_only_full_iff (size : UInt64) (key : List UInt8) :
    ((∀ (length : Nat) (ops : List Op) (self : MapT) (value : List UInt8), 0 < length →
        (∀ op ∈ ops, op.Uniform length) → value.length = length →
        ops.foldlM (step xxh3) (mapNew size) = .ok self →
          RefusedOnlyFull xxh3 self key value) ↔
      size.toNat ∣ 2 ^ 64 ∨ (xxh3 key SEED).toNat + size.toNat ≤ 2 ^ 64) ∧
    ((∀ j < size.toNat, j ∈ probes size (xxh3 key SEED)) ↔
      size.toNat ∣ 2 ^ 64 ∨ (xxh3 key SEED).toNat + size.toNat ≤ 2 ^ 64) := by
  have hcover := forall_mem_probes_iff size (xxh3 key SEED)
  refine ⟨?_, hcover⟩
  rw [← hcover]
  constructor
  · intro h j hj
    by_contra hmiss
    obtain ⟨ops, self, hops, hrun, hnot⟩ := exists_refused_not_full hj hmiss
    exact hnot (h 1 ops self [0] (by decide) hops rfl hrun)
  · intro h length ops self value _ _ _ hrun
    have hsize : self.size = size := size_foldlM hrun
    apply refusedOnlyFull_of_covered
    rwa [hsize]

/-- The hash of this key is `2 ^ 64 - 1`, so of three buckets it comes to 0, 0
and 1; `a` and `e` lie there, and bucket 2 is empty. -/
theorem refused_with_room :
    ¬∀ (size : UInt64) (length : Nat) (ops : List Op) (self : MapT) (key value : List UInt8),
      1 ≤ size → 0 < length → (∀ op ∈ ops, op.Uniform length) → value.length = length →
        ops.foldlM (step xxh3) (mapNew size) = .ok self → RefusedOnlyFull xxh3 self key value := by
  intro h
  have hrefused := h 3 1 [.set [97] [1], .set [101] [2]]
    ⟨3, [some (bucketNew [97] [1]), some (bucketNew [101] [2]), none], rfl⟩
    [253, 156, 91, 232, 194, 24, 42, 234] [3] (by decide) (by decide) (by decide) rfl
    (by decide +kernel)
  have hset : mapSet xxh3
      ⟨3, [some (bucketNew [97] [1]), some (bucketNew [101] [2]), none], rfl⟩
      [253, 156, 91, 232, 194, 24, 42, 234] [3] =
        .ok (⟨3, [some (bucketNew [97] [1]), some (bucketNew [101] [2]), none], rfl⟩, -1) := by
    decide +kernel
  obtain ⟨bucket, hbucket, _⟩ := hrefused.mp ⟨_, hset⟩ 2 (by decide)
  cases hbucket

end Doctrina.Map
