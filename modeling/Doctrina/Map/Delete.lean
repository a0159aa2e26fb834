import Doctrina.Lib.Execution
import Doctrina.Map.Lookup
/-!
# What a deletion does to the other keys

`mapDel` empties a bucket and leaves no mark, while a lookup ends at the first
empty bucket.  A deletion therefore hides a key exactly if the lookup of that
key passes through the emptied bucket, and a hidden copy of a deleted key
comes back exactly when another key fills the bucket in front of it.
-/

namespace Doctrina.Map

open Doctrina.Internal Doctrina.Lib.Execution Doctrina.Lib.Probing

inductive Op
  | set (key value : List UInt8)
  | del (key : List UInt8)

section Operations

variable (hash : List UInt8 → UInt64 → UInt64)

def step (self : MapT) : Op → Except Fault MapT
  | .set key value => (mapSet hash self key value).map Prod.fst
  | .del key => .ok (mapDel hash self key).1

/-- The bucket that `mapDel` of `key` empties lies on the way of a successful
lookup of `other`. -/
def Hides (self : MapT) (key other : List UInt8) : Prop :=
  Holds hash self other ∧
    ∃ j, stop hash self key = some j ∧
      j ∈ crossed (self.keys Bucket.bytes) other (probes self.size (hash other SEED))

/-- `mapDel` of `key` leaves what is seen of `other` as it was. -/
def Spares (self : MapT) (key other : List UInt8) : Prop :=
  mapExists hash (mapDel hash self key).1 other = mapExists hash self other ∧
    ∀ size, mapGet hash (mapDel hash self key).1 other (some size) =
      mapGet hash self other (some size)

variable {hash}

theorem not_holds_put_none_self {self : MapT} {key : List UInt8} {j : Nat}
    (hstop : stop hash self key = some j) : ¬Holds hash (self.put j none) key := by
  rw [Holds, Table.keys_put (stop_lt hstop), Table.size_put]
  exact not_found_erase_self hstop

section Emptied

-- the bucket `j` that the deletion of `key` empties
variable {self : MapT} {key other : List UInt8} {j : Nat} {bucket : Bucket}
  (hstop : stop hash self key = some j) (hbucket : self.bucket j = some bucket)

include hstop hbucket

theorem keys_of_stop : self.keys Bucket.bytes j = some key :=
  Table.keys_eq_some_iff.mpr ⟨bucket, hbucket, bytes_of_stop hstop hbucket⟩

theorem holds_put_none_iff (hne : key ≠ other) :
    Holds hash (self.put j none) other ↔ Holds hash self other ∧
      j ∉ crossed (self.keys Bucket.bytes) other (probes self.size (hash other SEED)) := by
  rw [Holds, Table.keys_put (stop_lt hstop), Table.size_put]
  exact found_erase_iff (keys_of_stop hstop hbucket) hne

theorem stop_put_none (hne : key ≠ other) (hother : Holds hash self other)
    (hcrossed : j ∉ crossed (self.keys Bucket.bytes) other
      (probes self.size (hash other SEED))) :
    stop hash (self.put j none) other = stop hash self other := by
  rw [stop, Table.stop, Table.keys_put (stop_lt hstop), Table.size_put]
  exact probe_erase (keys_of_stop hstop hbucket) hne hother hcrossed

theorem spares_of_not_crossed (hne : key ≠ other) (hother : Holds hash self other)
    (hcrossed : j ∉ crossed (self.keys Bucket.bytes) other
      (probes self.size (hash other SEED))) :
    mapExists hash (self.put j none) other = mapExists hash self other ∧
      ∀ size, mapGet hash (self.put j none) other (some size) =
        mapGet hash self other (some size) := by
  have hafter := (holds_put_none_iff hstop hbucket hne).mpr ⟨hother, hcrossed⟩
  obtain ⟨i, entry, histop, hentry⟩ := holds_iff.mp hother
  have hij : i ≠ j := by
    intro hij
    subst hij
    exact hne ((bytes_of_stop hstop hentry).symm.trans (bytes_of_stop histop hentry))
  have histop' : stop hash (self.put j none) other = some i := by
    rw [stop_put_none hstop hbucket hne hother hcrossed, histop]
  have hentry' : (self.put j none).bucket i = some entry := by
    rw [Table.bucket_put_ne self (stop_lt hstop) none hij, hentry]
  refine ⟨?_, fun size => ?_⟩
  · rw [mapExists_eq_one_iff.mpr hafter, mapExists_eq_one_iff.mpr hother]
  · rw [mapGet_of_stop histop' hentry', mapGet_of_stop histop hentry]

end Emptied

variable {self : MapT} {key other : List UInt8}

/-- A deletion spares another key exactly if it does not hide it. -/
theorem spares_iff_not_hides (hne : key ≠ other) (hdel : (mapDel hash self key).2 = 0) :
    Spares hash self key other ↔ ¬Hides hash self key other := by
  rcases mapDel_cases hash self key with ⟨_, heq⟩ | ⟨j, bucket, hstop, hbucket, heq⟩
  · simp [heq] at hdel
  have hafter := holds_put_none_iff hstop hbucket hne
  simp only [Spares, Hides, hstop, heq, Option.some.injEq, exists_eq_left']
  by_cases hother : Holds hash self other
  · by_cases hcrossed :
        j ∈ crossed (self.keys Bucket.bytes) other (probes self.size (hash other SEED))
    · have hgone : ¬Holds hash (self.put j none) other := fun h => (hafter.mp h).2 hcrossed
      simp [hother, hcrossed, mapExists_of_not_holds hgone, mapExists_eq_one_iff.mpr hother]
    · simp [hcrossed, spares_of_not_crossed hstop hbucket hne hother hcrossed]
  · have hgone : ¬Holds hash (self.put j none) other := fun h => hother (hafter.mp h).1
    simp [hother, mapExists_of_not_holds hgone, mapExists_of_not_holds hother,
      mapGet_of_not_holds hgone, mapGet_of_not_holds hother]

theorem mapDel_zero_of_hides (h : Hides hash self key other) :
    (mapDel hash self key).2 = 0 := by
  obtain ⟨_, j, hstop, hcrossed⟩ := h
  rcases mapDel_cases hash self key with ⟨hnone, _⟩ | ⟨_, _, _, _, heq⟩
  · have hpassed := passed_of_mem_crossed hcrossed
    cases hbucket : self.bucket j with
    | none => exact absurd (Table.keys_eq_none_iff.mpr hbucket) hpassed.1
    | some bucket => exact absurd (holds_iff.mpr ⟨j, bucket, hstop, hbucket⟩) hnone
  · rw [heq]

variable (hash)

/-- A deletion that returns 0 spares every other key. -/
def SparesOthers (self : MapT) : Op → Prop
  | .set _ _ => True
  | .del key => (mapDel hash self key).2 = 0 →
      ∀ other, key ≠ other → Spares hash self key other

/-- A deletion hides no other key. -/
def HidesNone (self : MapT) : Op → Prop
  | .set _ _ => True
  | .del key => ∀ other, key ≠ other → ¬Hides hash self key other

/-- From any map and through any run, the deletions spare every other key if
and only if none of them empties a bucket on the way of a successful lookup. -/
theorem deletions_spare_iff (self : MapT) (ops : List Op) :
    AlongM (step hash) (SparesOthers hash) self ops ↔
      AlongM (step hash) (HidesNone hash) self ops := by
  apply alongM_congr
  intro self op _
  cases op with
  | set key value => exact Iff.rfl
  | del key =>
      constructor
      · intro h other hne hhides
        have hdel := mapDel_zero_of_hides hhides
        exact (spares_iff_not_hides hne hdel).mp (h hdel other hne) hhides
      · intro h hdel other hne
        exact (spares_iff_not_hides hne hdel).mpr (h other hne)

end Operations

/-- Non-empty keys, and values of one length. -/
def Op.Uniform (length : Nat) : Op → Prop
  | .set key value => key ≠ [] ∧ value.length = length
  | .del key => key ≠ []

instance (length : Nat) : DecidablePred (Op.Uniform length)
  | .set key value => inferInstanceAs (Decidable (key ≠ [] ∧ value.length = length))
  | .del key => inferInstanceAs (Decidable (key ≠ []))

/-- `a` and `b` both start at bucket 1 of 2; deleting `a` hides `b`. -/
theorem deletion_hides_collision :
    ¬∀ (size : UInt64) (length : Nat) (ops : List Op) (self : MapT),
      1 ≤ size → 0 < length → (∀ op ∈ ops, op.Uniform length) →
        ops.foldlM (step Internal.xxh3) (mapNew size) = .ok self →
          ∀ key other, key ≠ [] → other ≠ [] → key ≠ other →
            (mapDel Internal.xxh3 self key).2 = 0 →
              Spares Internal.xxh3 self key other := by
  intro h
  have hspares := h 2 1 [.set [97] [1], .set [98] [2]]
    ⟨2, [some (bucketNew [98] [2]), some (bucketNew [97] [1])], rfl⟩
    (by decide) (by decide) (by decide) (by decide +kernel) [97] [98] (by decide)
    (by decide) (by decide) (by decide +kernel)
  have hexists := hspares.1
  revert hexists
  decide +kernel

end Doctrina.Map
