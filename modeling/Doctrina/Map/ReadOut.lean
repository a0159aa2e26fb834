import Doctrina.Map.Update
/-!
# Reading the entries of a map

`bucketNew` leaves the buffer of an empty value at NULL, which `bucketData`
takes for a failed allocation; and an update that makes the buffer shorter than
the recorded size lets `bucketData` copy beyond it.
-/

namespace Doctrina.Map

open Doctrina.Internal Doctrina.Lib.Execution Doctrina.Lib.Probing

theorem readable_bucketNew_iff (key value : List UInt8) :
    (bucketNew key value).Readable ↔ value ≠ [] := by
  by_cases hvalue : value = []
  · simp [Bucket.Readable, bucketNew, duplicate, hvalue]
  · have hlen : 0 < value.length := List.length_pos_iff.mpr hvalue
    simp [Bucket.Readable, bucketNew, duplicate, hvalue, hlen]

theorem Bucket.Readable.update_in_place {self : Bucket} {value : List UInt8}
    (h : self.Readable) (hsize : self.size = value.length) :
    ∃ bucket, bucketUpdate self value = .ok bucket ∧ bucket.Readable := by
  obtain ⟨bytes, hdata, hroom⟩ := h
  have hresize : bucketResize self value.length = .ok (some bytes) := by
    simp [bucketResize, hsize, hdata]
  have hcopy : memcpyAt bytes 0 value = .ok (value ++ bytes.drop value.length) := by
    rw [memcpyAt, if_pos (by omega)]
    simp
  refine ⟨{ self with data := some (value ++ bytes.drop value.length) }, ?_, _, rfl, ?_⟩
  · simp only [bucketUpdate, hresize, memcpyTo, hcopy, bind, Except.bind]
    rfl
  · rw [List.length_append]
    exact hsize.le.trans (Nat.le_add_right _ _)

/-- A value that can be read again once it is stored in place of what the bucket
holds, or that `bucketUpdate` refuses. -/
def Storable (bucket : Option Bucket) (value : List UInt8) : Prop :=
  match bucket with
  | none => value ≠ []
  | some bucket => value = [] ∨ bucket.size ≤ value.length

/-- An update of a bucket that can be read leaves one that can be read exactly if
the value is storable; it fails for no other. -/
theorem Bucket.Readable.update_cases {self : Bucket} (h : self.Readable) (value : List UInt8) :
    (value = [] ∧ ∃ e, bucketUpdate self value = .error e) ∨
      ∃ bucket, bucketUpdate self value = .ok bucket ∧
        (bucket.Readable ↔ Storable (some self) value) := by
  by_cases hsize : self.size = value.length
  · obtain ⟨bucket, hupdate, hread⟩ := h.update_in_place hsize
    exact .inr ⟨bucket, hupdate, iff_of_true hread (.inr hsize.le)⟩
  · by_cases hvalue : value = []
    · left
      obtain ⟨bytes, hdata, _⟩ := h
      subst hvalue
      refine ⟨rfl, .exit "bucket_update" "could not re- allocate bucket.data to the heap", ?_⟩
      have hresize : bucketResize self ([] : List UInt8).length =
          .error (.exit "bucket_update" "could not re- allocate bucket.data to the heap") := by
        simp only [bucketResize, hdata, realloc, List.length_nil, if_true]
        exact if_pos (Ne.symm hsize)
      simp only [bucketUpdate, hresize, bind, Except.bind]
    · right
      refine ⟨_, bucketUpdate_resized hvalue hsize, ?_⟩
      simp [Bucket.Readable, Storable, hvalue]

section Operations

variable (hash : List UInt8 → UInt64 → UInt64)

/-- `mapGet` returns for every key that `mapExists` finds. -/
def ReadsOut (self : MapT) : Prop :=
  ∀ key, mapExists hash self key = 1 →
    ∀ size, ∃ read, mapGet hash self key (some size) = .ok read

def Readable (self : MapT) : Prop :=
  ∀ j bucket, self.bucket j = some bucket → bucket.Readable

/-- The value can be read once it is stored. -/
def StoresReadable (self : MapT) : Op → Prop
  | .set key value => ∀ j, stop hash self key = some j → Storable (self.bucket j) value
  | .del _ => True

variable {hash} {self self' : MapT} {key value : List UInt8} {j : Nat}

theorem Readable.readsOut (h : Readable self) : ReadsOut hash self := by
  intro key hkey size
  obtain ⟨j, bucket, hstop, hbucket⟩ := holds_iff.mp (mapExists_eq_one_iff.mp hkey)
  obtain ⟨data, hdata⟩ := bucketData_ok_iff.mpr (h j bucket hbucket)
  rw [mapGet_of_stop hstop hbucket, hdata]
  exact ⟨_, rfl⟩

theorem Readable.put (h : Readable self) (hj : j < self.size.toNat) {entry : Option Bucket}
    (hentry : ∀ bucket, entry = some bucket → bucket.Readable) :
    Readable (self.put j entry) := by
  intro i bucket hbucket
  rw [Table.bucket_put self hj] at hbucket
  split at hbucket
  · exact hentry bucket hbucket
  · exact h i bucket hbucket

theorem ReadsOut.readable (hstop : stop hash self key = some j) {bucket : Bucket}
    (hbytes : bucket.bytes = key) (h : ReadsOut hash (self.put j (some bucket))) :
    bucket.Readable := by
  have hstop' := stop_put_self hstop hbytes
  have hbucket := Table.bucket_put_self self (stop_lt hstop) (some bucket)
  have hexists := mapExists_eq_one_iff.mpr (holds_iff.mpr ⟨j, bucket, hstop', hbucket⟩)
  obtain ⟨read, hread⟩ := h key hexists 0
  rw [mapGet_of_stop hstop' hbucket] at hread
  obtain ⟨data, hdata, _⟩ := Except.map_eq_ok hread
  exact bucketData_ok_iff.mp ⟨data, hdata⟩

theorem storesReadable_iff (hstop : stop hash self key = some j) :
    StoresReadable hash self (.set key value) ↔ Storable (self.bucket j) value := by
  simp [StoresReadable, hstop]

theorem Readable.set (h : Readable self) :
    ((∃ e, mapSet hash self key value = .error e) ∧
        StoresReadable hash self (.set key value)) ∨
      ∃ self' code, mapSet hash self key value = .ok (self', code) ∧
        (StoresReadable hash self (.set key value) → Readable self') ∧
        (ReadsOut hash self' → StoresReadable hash self (.set key value)) := by
  rcases mapSet_cases hash self key value with
    ⟨hstop, heq⟩ | ⟨j, hstop, hempty, heq⟩ | ⟨j, bucket, hstop, hbucket, heq⟩
  · refine .inr ⟨self, -1, heq, fun _ => h, fun _ j hj => ?_⟩
    rw [hstop] at hj
    cases hj
  · refine .inr ⟨_, 0, heq, fun hq => ?_, fun hread => ?_⟩
    · rw [storesReadable_iff hstop, hempty] at hq
      refine h.put (stop_lt hstop) fun bucket hbucket => ?_
      rw [← Option.some.inj hbucket]
      exact (readable_bucketNew_iff key value).mpr hq
    · rw [storesReadable_iff hstop, hempty]
      exact (readable_bucketNew_iff key value).mp
        (hread.readable hstop (bytes_bucketNew key value))
  · have hkey := bytes_of_stop hstop hbucket
    rcases (h j bucket hbucket).update_cases value with
      ⟨hvalue, e, herror⟩ | ⟨bucket', hupdate, hiff⟩
    · rw [heq, herror, storesReadable_iff hstop, hbucket]
      exact .inl ⟨⟨e, rfl⟩, .inl hvalue⟩
    · rw [hupdate] at heq
      refine .inr ⟨_, 0, heq, fun hq => ?_, fun hread => ?_⟩
      · rw [storesReadable_iff hstop, hbucket] at hq
        refine h.put (stop_lt hstop) fun entry hentry => ?_
        rw [← Option.some.inj hentry]
        exact hiff.mpr hq
      · rw [storesReadable_iff hstop, hbucket]
        exact hiff.mp (hread.readable hstop ((bucketUpdate_ok hupdate).1.trans hkey))

theorem Readable.del (h : Readable self) : Readable (mapDel hash self key).1 := by
  rcases mapDel_cases hash self key with ⟨_, heq⟩ | ⟨j, bucket, hstop, hbucket, heq⟩
  · rwa [heq]
  · rw [heq]
    exact h.put (stop_lt hstop) fun bucket hentry =>
      absurd hentry.symm (Option.some_ne_none bucket)

theorem Readable.step_cases (h : Readable self) (op : Op) :
    ((∃ e, step hash self op = .error e) ∧ StoresReadable hash self op) ∨
      ∃ self', step hash self op = .ok self' ∧
        (StoresReadable hash self op → Readable self') ∧
        (ReadsOut hash self' → StoresReadable hash self op) := by
  cases op with
  | set key value =>
      rcases @Readable.set hash self key value h with
        ⟨⟨e, herror⟩, hq⟩ | ⟨self', code, hset, hkeep, hbreak⟩
      · exact .inl ⟨⟨e, by rw [step, herror]; rfl⟩, hq⟩
      · exact .inr ⟨self', by rw [step, hset]; rfl, hkeep, hbreak⟩
  | del key => exact .inr ⟨_, rfl, fun _ => h.del, fun _ => trivial⟩

theorem readable_new (size : UInt64) : Readable (mapNew size) := by
  intro j bucket hbucket
  simp [mapNew] at hbucket

theorem readsOut_iff_alongM (size : UInt64) (ops : List Op) :
    (∀ before after map, ops = before ++ after →
        before.foldlM (step hash) (mapNew size) = .ok map → ReadsOut hash map) ↔
      AlongM (step hash) (StoresReadable hash) (mapNew size) ops := by
  have htrue : AlongM (step hash) (fun _ _ => True) (mapNew size) ops :=
    alongM_of_forall (fun _ _ => trivial)
  refine shows_iff_alongM (fun _ h => Readable.readsOut h) ?_ ?_ ?_ (readable_new size) htrue
  · intro self op self' h _ hq hstep
    rcases h.step_cases op with ⟨⟨e, herror⟩, _⟩ | ⟨next, hnext, hkeep, _⟩
    · rw [herror] at hstep
      cases hstep
    · rw [hnext, Except.ok.injEq] at hstep
      exact hstep ▸ hkeep hq
  · intro self op self' h _ hstep hread
    rcases h.step_cases op with ⟨_, hq⟩ | ⟨next, hnext, _, hbreak⟩
    · exact hq
    · rw [hnext, Except.ok.injEq] at hstep
      exact hbreak (hstep ▸ hread)
  · intro self op e h _ hstep
    rcases h.step_cases op with ⟨_, hq⟩ | ⟨next, hnext, _, _⟩
    · exact hq
    · rw [hnext] at hstep
      cases hstep

end Operations

end Doctrina.Map
