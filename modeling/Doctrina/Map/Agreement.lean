import Doctrina.Map.Update
/-!
# The four loops of map.c agree

`mapExists`, `mapGet`, `mapDel` and `mapSet` repeat one loop by hand.  On any
bucket array, reachable or not, they stop at the same bucket, so that each of
them tells whether the others find the key, and a deletion takes back the
store of a key that was not there.
-/

namespace Doctrina.Map

open Doctrina.Internal Doctrina.Lib.Probing

/-- The bucket has a value of one byte at least, of the recorded size. -/
def Bucket.HasValue (self : Bucket) : Prop :=
  0 < self.size ∧ self.size ≤ (self.data.getD []).length

instance (self : Bucket) : Decidable self.HasValue := inferInstanceAs (Decidable (_ ∧ _))

/-- Every value stored in the array is non-empty. -/
def HasValues (self : MapT) : Prop :=
  ∀ j bucket, self.bucket j = some bucket → bucket.HasValue

section Operations

variable (hash : List UInt8 → UInt64 → UInt64) (self : MapT) (key : List UInt8)

/-- A `mapSet` of the key with a value of the length stored for it returns 0
and changes nothing but the value in a bucket that held the key already. -/
def OverwritesInPlace : Prop :=
  ∃ j bucket, self.bucket j = some bucket ∧ bucket.bytes = key ∧
    ∀ value : List UInt8, value.length = bucket.size →
      ∃ bucket', bucket'.bytes = key ∧ bucketRead bucket' = .ok (value, value.length) ∧
        mapSet hash self key value = .ok (self.put j (some bucket'), 0)

/-- What the four loops tell about a key, and about each other. -/
structure LoopsAgree : Prop where
  get : ∀ size, mapExists hash self key = 1 ↔
    ∃ value n, mapGet hash self key (some size) = .ok (some value, n)
  del : mapExists hash self key = 1 ↔ (mapDel hash self key).2 = 0
  overwrite : mapExists hash self key = 1 ↔ OverwritesInPlace hash self key
  after_del : (mapDel hash self key).2 = 0 →
    mapExists hash (mapDel hash self key).1 key = 0 ∧
      (∀ size, mapGet hash (mapDel hash self key).1 key (some size) = .ok (none, 0)) ∧
      mapDel hash (mapDel hash self key).1 key = ((mapDel hash self key).1, -1)
  after_set : ∀ value after, mapSet hash self key value = .ok (after, 0) →
    mapExists hash after key = 1
  undo : mapExists hash self key = 0 →
    ∀ value after, mapSet hash self key value = .ok (after, 0) →
      mapDel hash after key = (self, 0)

variable {hash self key}

theorem mapExists_eq_zero_iff : mapExists hash self key = 0 ↔ ¬Holds hash self key := by
  rcases mapExists_cases hash self key with ⟨hholds, h⟩ | ⟨hholds, h⟩
  · simp [hholds, h]
  · simp [hholds, h]

theorem mapDel_eq_zero_iff : (mapDel hash self key).2 = 0 ↔ Holds hash self key := by
  rcases mapDel_cases hash self key with ⟨hnone, heq⟩ | ⟨j, bucket, hstop, hbucket, heq⟩
  · simp [heq, hnone]
  · simp [heq, holds_iff.mpr ⟨j, bucket, hstop, hbucket⟩]

theorem mapDel_of_stop {j : Nat} {bucket : Bucket} (hstop : stop hash self key = some j)
    (hbucket : self.bucket j = some bucket) : mapDel hash self key = (self.put j none, 0) := by
  rcases mapDel_cases hash self key with ⟨hnone, _⟩ | ⟨j', _, hstop', _, heq⟩
  · exact absurd (holds_iff.mpr ⟨j, bucket, hstop, hbucket⟩) hnone
  · rw [hstop, Option.some.injEq] at hstop'
    rw [heq, hstop']

theorem mapDel_of_not_holds (h : ¬Holds hash self key) :
    mapDel hash self key = (self, -1) := by
  rcases mapDel_cases hash self key with ⟨_, heq⟩ | ⟨j, bucket, hstop, hbucket, _⟩
  · exact heq
  · exact absurd (holds_iff.mpr ⟨j, bucket, hstop, hbucket⟩) h

theorem Bucket.HasValue.readable {bucket : Bucket} (h : bucket.HasValue) : bucket.Readable := by
  obtain ⟨hpos, hroom⟩ := h
  cases hdata : bucket.data with
  | none =>
      rw [hdata] at hroom
      exact absurd hroom (by simpa using hpos.ne')
  | some bytes =>
      rw [hdata] at hroom
      exact ⟨bytes, hdata, hroom⟩

theorem mapGet_returns_iff (hself : HasValues self) (size : Nat) :
    (∃ value n, mapGet hash self key (some size) = .ok (some value, n)) ↔
      Holds hash self key := by
  rcases mapGet_cases hash self key size with ⟨hnone, hget⟩ | ⟨j, bucket, hstop, hbucket, hget⟩
  · simp [hget, hnone]
  · obtain ⟨value, hvalue⟩ := bucketData_ok_iff.mpr (hself j bucket hbucket).readable
    refine iff_of_true ⟨value, bucketSize bucket, ?_⟩
      (holds_iff.mpr ⟨j, bucket, hstop, hbucket⟩)
    rw [hget, hvalue]
    rfl

theorem mapSet_eq_zero {value : List UInt8} {after : MapT}
    (h : mapSet hash self key value = .ok (after, 0)) :
    ∃ j bucket, stop hash self key = some j ∧ bucket.bytes = key ∧
      after = self.put j (some bucket) := by
  rcases mapSet_cases hash self key value with
    ⟨_, heq⟩ | ⟨j, hstop, _, heq⟩ | ⟨j, bucket, hstop, hbucket, heq⟩
  · rw [heq, Except.ok.injEq, Prod.mk.injEq] at h
    exact absurd h.2 (by decide)
  · rw [heq, Except.ok.injEq, Prod.mk.injEq] at h
    exact ⟨j, bucketNew key value, hstop, bytes_bucketNew key value, h.1.symm⟩
  · rw [heq] at h
    obtain ⟨bucket', hupdate, hpair⟩ := Except.map_eq_ok h
    have hbytes := (bucketUpdate_ok hupdate).1.trans (bytes_of_stop hstop hbucket)
    exact ⟨j, bucket', hstop, hbytes, (Prod.mk.inj hpair).1.symm⟩

theorem overwritesInPlace_of_stop {j : Nat} {bucket : Bucket}
    (hstop : stop hash self key = some j) (hbucket : self.bucket j = some bucket)
    (hvalue : bucket.HasValue) : OverwritesInPlace hash self key := by
  refine ⟨j, bucket, hbucket, bytes_of_stop hstop hbucket, fun value hlen => ?_⟩
  have hne : value ≠ [] := by
    apply List.length_pos_iff.mp
    rw [hlen]
    exact hvalue.1
  have hfits : value.length ≤ (bucket.data.getD []).length := by
    rw [hlen]
    exact hvalue.2
  obtain ⟨bucket', hupdate, hread⟩ := (bucketUpdate_same hne hlen.symm).mpr hfits
  rcases mapSet_cases hash self key value with
    ⟨hstop', _⟩ | ⟨j', hstop', hempty, _⟩ | ⟨j', entry, hstop', hentry, heq⟩
  · exact absurd (hstop.symm.trans hstop') (Option.some_ne_none j)
  · rw [← Option.some.inj (hstop.symm.trans hstop'), hbucket] at hempty
    exact absurd hempty (Option.some_ne_none bucket)
  · have hj : j = j' := Option.some.inj (hstop.symm.trans hstop')
    subst hj
    have hentry' : bucket = entry := Option.some.inj (hbucket.symm.trans hentry)
    subst hentry'
    refine ⟨bucket', (bucketUpdate_ok hupdate).1.trans (bytes_of_stop hstop hbucket),
      hread, ?_⟩
    rw [heq, hupdate]
    rfl

theorem holds_of_overwritesInPlace (h : OverwritesInPlace hash self key) :
    Holds hash self key := by
  obtain ⟨j, bucket, hbucket, _, hset⟩ := h
  obtain ⟨bucket', _, _, heq⟩ := hset (List.replicate bucket.size 0) List.length_replicate
  rcases mapSet_cases hash self key (List.replicate bucket.size 0) with
    ⟨_, heq'⟩ | ⟨i, hstop, hempty, heq'⟩ | ⟨i, entry, hstop, hentry, _⟩
  · rw [heq', Except.ok.injEq, Prod.mk.injEq] at heq
    exact absurd heq.2 (by decide)
  · -- the bucket `i` was empty, and writing to `j` leaves it so
    rw [heq', Except.ok.injEq, Prod.mk.injEq] at heq
    have hij : i ≠ j := by
      intro hij
      rw [hij, hbucket] at hempty
      exact Option.some_ne_none bucket hempty
    have hfilled := Table.bucket_put_self self (stop_lt hstop)
      (some (bucketNew key (List.replicate bucket.size 0)))
    rw [heq.1, Table.bucket, Table.put, List.getD_eq_getElem?_getD,
      List.getElem?_set_ne (Ne.symm hij), ← List.getD_eq_getElem?_getD, ← Table.bucket,
      hempty] at hfilled
    exact absurd hfilled.symm (Option.some_ne_none _)
  · exact holds_iff.mpr ⟨i, entry, hstop, hentry⟩

theorem overwritesInPlace_iff (hself : HasValues self) :
    OverwritesInPlace hash self key ↔ Holds hash self key := by
  constructor
  · exact holds_of_overwritesInPlace
  · intro h
    obtain ⟨j, bucket, hstop, hbucket⟩ := holds_iff.mp h
    exact overwritesInPlace_of_stop hstop hbucket (hself j bucket hbucket)

theorem not_holds_mapDel (h : (mapDel hash self key).2 = 0) :
    ¬Holds hash (mapDel hash self key).1 key := by
  rcases mapDel_cases hash self key with ⟨_, heq⟩ | ⟨j, bucket, hstop, _, heq⟩
  · simp [heq] at h
  · rw [heq]
    exact not_holds_put_none_self hstop

theorem holds_mapSet {value : List UInt8} {after : MapT}
    (h : mapSet hash self key value = .ok (after, 0)) : Holds hash after key := by
  obtain ⟨j, bucket, hstop, hbytes, rfl⟩ := mapSet_eq_zero h
  exact holds_iff.mpr ⟨j, bucket, stop_put_self hstop hbytes,
    Table.bucket_put_self self (stop_lt hstop) (some bucket)⟩

/-- Deleting a key right after it was stored for the first time. -/
theorem mapDel_mapSet (hnone : ¬Holds hash self key) {value : List UInt8} {after : MapT}
    (h : mapSet hash self key value = .ok (after, 0)) :
    mapDel hash after key = (self, 0) := by
  obtain ⟨j, bucket, hstop, hbytes, rfl⟩ := mapSet_eq_zero h
  have hempty : self.bucket j = none := by
    cases hbucket : self.bucket j with
    | none => rfl
    | some entry => exact absurd (holds_iff.mpr ⟨j, entry, hstop, hbucket⟩) hnone
  rw [mapDel_of_stop (stop_put_self hstop hbytes)
    (Table.bucket_put_self self (stop_lt hstop) (some bucket)),
    Table.put_put_none self (stop_lt hstop) hempty]

variable (hash)

/-- On every bucket array with non-empty values, and whatever the hash, the
four loops agree about every key. -/
theorem loops_agree (self : MapT) (hself : HasValues self) (key : List UInt8) :
    LoopsAgree hash self key where
  get size := mapExists_eq_one_iff.trans (mapGet_returns_iff hself size).symm
  del := mapExists_eq_one_iff.trans mapDel_eq_zero_iff.symm
  overwrite := mapExists_eq_one_iff.trans (overwritesInPlace_iff hself).symm
  after_del h :=
    have hgone := not_holds_mapDel h
    ⟨mapExists_of_not_holds hgone, mapGet_of_not_holds hgone, mapDel_of_not_holds hgone⟩
  after_set _ _ h := mapExists_eq_one_iff.mpr (holds_mapSet h)
  undo hzero _ _ h := mapDel_mapSet (mapExists_eq_zero_iff.mp hzero) h

end Operations

theorem hasValues_of_mem {self : MapT}
    (h : ∀ bucket, some bucket ∈ self.buckets → bucket.HasValue) : HasValues self := by
  intro j bucket hbucket
  rw [Table.bucket, List.getD_eq_getElem?_getD] at hbucket
  cases hentry : self.buckets[j]? with
  | none => simp [hentry] at hbucket
  | some entry =>
      rw [hentry, Option.getD_some] at hbucket
      exact h bucket (hbucket ▸ List.mem_of_getElem? hentry)

/-- An array that no run reaches: `a` twice, and a hole. -/
theorem loops_agree_duplicates :
    LoopsAgree (fun _ _ => 0 - 1)
      ⟨3, [some (bucketNew [97] [1]), none, some (bucketNew [97] [2])], rfl⟩ [97] :=
  loops_agree (fun _ _ => 0 - 1)
    ⟨3, [some (bucketNew [97] [1]), none, some (bucketNew [97] [2])], rfl⟩
    (hasValues_of_mem (by simp [bucketNew, duplicate, Bucket.HasValue])) [97]

end Doctrina.Map
