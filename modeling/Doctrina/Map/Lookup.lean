import Doctrina.Map.Basic
/-!
# What the functions of map.c see and do

A key is held when a lookup of it ends at a bucket with it.  Each function of
the map gets one lemma that lists what it can do.
-/

namespace Doctrina.Map

open Doctrina.Internal Doctrina.Lib.Probing

def Bucket.bytes (self : Bucket) : List UInt8 := self.key.getD []

@[simp] theorem bytes_bucketNew (key data : List UInt8) :
    (bucketNew key data).bytes = key := duplicate_getD key

theorem bucketHaskey_iff (self : Bucket) (key : List UInt8) :
    bucketHaskey self key = true ↔ self.bytes = key :=
  haskey_iff self.keylen_eq key

theorem bucketUpdate_ok {self bucket : Bucket} {data : List UInt8}
    (h : bucketUpdate self data = .ok bucket) :
    bucket.bytes = self.bytes ∧ bucket.size = self.size := by
  unfold bucketUpdate at h
  obtain ⟨buffer, _, h⟩ := Except.bind_eq_ok h
  obtain ⟨buffer', _, h⟩ := Except.bind_eq_ok h
  cases h
  exact ⟨rfl, rfl⟩

section Operations

variable (hash : List UInt8 → UInt64 → UInt64) (self : MapT) (key : List UInt8)

/-- The bucket where a lookup of the key ends. -/
def stop : Option Nat := self.stop Bucket.bytes key (hash key SEED)

/-- The lookup of the key ends at a bucket that holds it. -/
def Holds : Prop := Found (self.keys Bucket.bytes) key (probes self.size (hash key SEED))

variable {hash self key}

theorem stop_lt {j : Nat} (hstop : stop hash self key = some j) : j < self.size.toNat :=
  Table.stop_lt hstop

theorem bytes_of_stop {j : Nat} {bucket : Bucket} (hstop : stop hash self key = some j)
    (hbucket : self.bucket j = some bucket) : bucket.bytes = key :=
  Table.bytes_of_stop hstop hbucket

theorem stop_put_self {j : Nat} (hstop : stop hash self key = some j) {bucket : Bucket}
    (hbytes : bucket.bytes = key) : stop hash (self.put j (some bucket)) key = some j :=
  Table.stop_put_self hstop hbytes

theorem holds_iff : Holds hash self key ↔
    ∃ j bucket, stop hash self key = some j ∧ self.bucket j = some bucket := by
  constructor
  · intro h
    obtain ⟨j, hstop, hj⟩ := h
    obtain ⟨bucket, hbucket, _⟩ := Table.keys_eq_some_iff.mp hj
    exact ⟨j, bucket, hstop, hbucket⟩
  · intro h
    obtain ⟨j, bucket, hstop, hbucket⟩ := h
    exact ⟨j, hstop,
      Table.keys_eq_some_iff.mpr ⟨bucket, hbucket, bytes_of_stop hstop hbucket⟩⟩

theorem not_holds_of_none (hstop : stop hash self key = none) : ¬Holds hash self key := by
  simp [holds_iff, hstop]

theorem not_holds_of_empty {j : Nat} (hstop : stop hash self key = some j)
    (hempty : self.bucket j = none) : ¬Holds hash self key := by
  simp [holds_iff, hstop, hempty]

variable (hash self key)

theorem mapGet_cases (size : Nat) :
    (¬Holds hash self key ∧ mapGet hash self key (some size) = .ok (none, 0)) ∨
    (∃ j bucket, stop hash self key = some j ∧ self.bucket j = some bucket ∧
      mapGet hash self key (some size) =
        (bucketData bucket).map fun data => (some data, bucketSize bucket)) := by
  rcases Table.search_cases (bucketHaskey_iff · key) (fun _ => .ok (none, 0))
      (fun _ bucket => (bucketData bucket).map fun data => (some data, bucketSize bucket))
      (.ok (none, 0)) with ⟨hstop, h⟩ | ⟨j, hstop, hempty, h⟩ | h
  · exact .inl ⟨not_holds_of_none hstop, h⟩
  · exact .inl ⟨not_holds_of_empty hstop hempty, h⟩
  · exact .inr h

theorem mapExists_cases :
    (¬Holds hash self key ∧ mapExists hash self key = 0) ∨
    (Holds hash self key ∧ mapExists hash self key = 1) := by
  rcases Table.search_cases (bucketHaskey_iff · key) (fun _ => (0 : Int)) (fun _ _ => 1) 0
    with ⟨hstop, h⟩ | ⟨j, hstop, hempty, h⟩ | ⟨j, bucket, hstop, hbucket, h⟩
  · exact .inl ⟨not_holds_of_none hstop, h⟩
  · exact .inl ⟨not_holds_of_empty hstop hempty, h⟩
  · exact .inr ⟨holds_iff.mpr ⟨j, bucket, hstop, hbucket⟩, h⟩

/-- A store finds no bucket, fills an empty one, or updates the one of its
key. -/
theorem mapSet_cases (data : List UInt8) :
    (stop hash self key = none ∧ mapSet hash self key data = .ok (self, -1)) ∨
    (∃ j, stop hash self key = some j ∧ self.bucket j = none ∧
      mapSet hash self key data = .ok (self.put j (some (bucketNew key data)), 0)) ∨
    (∃ j bucket, stop hash self key = some j ∧ self.bucket j = some bucket ∧
      mapSet hash self key data =
        (bucketUpdate bucket data).map fun bucket => (self.put j (some bucket), 0)) :=
  Table.search_cases (bucketHaskey_iff · key) _ _ _

theorem mapDel_cases :
    (¬Holds hash self key ∧ mapDel hash self key = (self, -1)) ∨
      ∃ j bucket, stop hash self key = some j ∧ self.bucket j = some bucket ∧
        mapDel hash self key = (self.put j none, 0) := by
  rcases Table.search_cases (bucketHaskey_iff · key) (fun _ => (self, -1))
      (fun j _ => (self.put j none, 0)) (self, -1)
    with ⟨hstop, h⟩ | ⟨j, hstop, hempty, h⟩ | h
  · exact .inl ⟨not_holds_of_none hstop, h⟩
  · exact .inl ⟨not_holds_of_empty hstop hempty, h⟩
  · exact .inr h

variable {hash self key}

theorem mapExists_eq_one_iff : mapExists hash self key = 1 ↔ Holds hash self key := by
  rcases mapExists_cases hash self key with ⟨hholds, h⟩ | ⟨hholds, h⟩
  · simp [hholds, h]
  · simp [hholds, h]

theorem mapExists_of_not_holds (h : ¬Holds hash self key) :
    mapExists hash self key = 0 := by
  rcases mapExists_cases hash self key with ⟨_, hzero⟩ | ⟨hholds, _⟩
  · exact hzero
  · exact absurd hholds h

theorem mapGet_of_not_holds (h : ¬Holds hash self key) (size : Nat) :
    mapGet hash self key (some size) = .ok (none, 0) := by
  rcases mapGet_cases hash self key size with ⟨_, hget⟩ | ⟨j, bucket, hstop, hbucket, _⟩
  · exact hget
  · exact absurd (holds_iff.mpr ⟨j, bucket, hstop, hbucket⟩) h

theorem mapGet_of_stop {j : Nat} {bucket : Bucket} (hstop : stop hash self key = some j)
    (hbucket : self.bucket j = some bucket) (size : Nat) :
    mapGet hash self key (some size) =
      (bucketData bucket).map fun data => (some data, bucketSize bucket) := by
  rcases mapGet_cases hash self key size with ⟨h, _⟩ | ⟨j', bucket', hstop', hbucket', hget⟩
  · exact absurd (holds_iff.mpr ⟨j, bucket, hstop, hbucket⟩) h
  · rw [hstop, Option.some.injEq] at hstop'
    rw [← hstop', hbucket, Option.some.injEq] at hbucket'
    rw [hget, hbucket']

end Operations

end Doctrina.Map
