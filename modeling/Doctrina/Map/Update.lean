import Doctrina.Map.Delete
/-!
# What is read back after a store

`bucketUpdate` resizes the buffer of a value and leaves the recorded size,
which every read goes by, as the first store of the key set it.
-/

namespace Doctrina.Map

open Doctrina.Internal Doctrina.Lib.Execution Doctrina.Lib.Probing

/-- The recorded size is that of the value, and the buffer has room for it. -/
def Bucket.Fits (self : Bucket) (value : List UInt8) : Prop :=
  self.size = value.length ∧ value.length ≤ (self.data.getD []).length

instance (self : Bucket) : DecidablePred self.Fits := fun _ =>
  inferInstanceAs (Decidable (_ ∧ _))

/-- The bytes and the size that the body of `mapGet` returns from a bucket. -/
def bucketRead (self : Bucket) : Except Fault (List UInt8 × Nat) :=
  (bucketData self).map fun data => (data, bucketSize self)

/-- The buffer is there and has the recorded size. -/
def Bucket.Readable (self : Bucket) : Prop :=
  ∃ data, self.data = some data ∧ self.size ≤ data.length

theorem bucketData_ok_iff {self : Bucket} :
    (∃ data, bucketData self = .ok data) ↔ self.Readable := by
  unfold bucketData Bucket.Readable
  cases hdata : self.data with
  | none => simp
  | some bytes =>
      by_cases hroom : self.size ≤ bytes.length
      · simp [memcpyFrom, hroom]
      · simp [memcpyFrom, hroom]

theorem bucketRead_new {key value : List UInt8} (h : value ≠ []) :
    bucketRead (bucketNew key value) = .ok (value, value.length) := by
  have hlen : 0 < value.length := List.length_pos_iff.mpr h
  simp [bucketRead, bucketData, bucketNew, bucketSize, duplicate, hlen, memcpyFrom, Except.map]

theorem memcpyTo_ok_iff {buffer : Option (List UInt8)} {data : List UInt8} (h : data ≠ []) :
    (∃ buffer', memcpyTo buffer data = .ok buffer') ↔
      data.length ≤ (buffer.getD []).length := by
  cases buffer with
  | none =>
      have hlen : 0 < data.length := List.length_pos_iff.mpr h
      simp [memcpyTo, h]
  | some bytes =>
      by_cases hroom : data.length ≤ bytes.length
      · simp [memcpyTo, memcpyAt, hroom, Except.map]
      · simp [memcpyTo, memcpyAt, hroom, Except.map]

theorem bucketUpdate_same {self : Bucket} {value : List UInt8} (h : value ≠ [])
    (hsize : self.size = value.length) :
    (∃ bucket, bucketUpdate self value = .ok bucket ∧
        bucketRead bucket = .ok (value, value.length)) ↔
      value.length ≤ (self.data.getD []).length := by
  have hresize : bucketResize self value.length = .ok self.data := by
    simp [bucketResize, hsize]
  have hupdate : bucketUpdate self value =
      (memcpyTo self.data value).map fun buffer => { self with data := buffer } := by
    rw [bucketUpdate, hresize]
    rfl
  rw [← memcpyTo_ok_iff h, hupdate]
  cases hdata : self.data with
  | none => simp [memcpyTo, h, Except.map]
  | some bytes =>
      by_cases hroom : value.length ≤ bytes.length
      · simp [memcpyTo, memcpyAt, hroom, Except.map, bucketRead, bucketData, bucketSize,
          hsize, memcpyFrom]
      · simp [memcpyTo, memcpyAt, hroom, Except.map]

theorem length_bucketUpdate {self bucket : Bucket} {value : List UInt8}
    (h : bucketUpdate self value = .ok bucket) (hsize : self.size = value.length) :
    (bucket.data.getD []).length = (self.data.getD []).length := by
  unfold bucketUpdate at h
  obtain ⟨buffer, hresize, h⟩ := Except.bind_eq_ok h
  obtain ⟨buffer', hcopy, h⟩ := Except.bind_eq_ok h
  have hkept : buffer = self.data := by simpa [bucketResize, hsize] using hresize.symm
  cases h
  rw [← hkept]
  exact length_memcpyTo hcopy

theorem bucketUpdate_resized {self : Bucket} {value : List UInt8} (h : value ≠ [])
    (hsize : self.size ≠ value.length) :
    bucketUpdate self value = .ok { self with data := some value } := by
  have hlen : value.length ≠ 0 := List.length_eq_zero_iff.not.mpr h
  obtain ⟨bytes, hrealloc, hbytes⟩ := length_realloc self.data hlen
  have hresize : bucketResize self value.length = .ok (some bytes) := by
    simp [bucketResize, Ne.symm hsize, hrealloc]
  rw [bucketUpdate, hresize]
  change ((memcpyTo (some bytes) value).bind fun buffer =>
    .ok { self with data := buffer }) = _
  rw [memcpyTo_of_length_eq hbytes]
  rfl

/-- An update followed by a read gives the value back exactly if it fits. -/
theorem bucketUpdate_reads_back_iff {self : Bucket} {value : List UInt8} (h : value ≠ []) :
    (∃ bucket, bucketUpdate self value = .ok bucket ∧
        bucketRead bucket = .ok (value, value.length)) ↔ self.Fits value := by
  by_cases hsize : self.size = value.length
  · rw [bucketUpdate_same h hsize, Bucket.Fits]
    exact (and_iff_right hsize).symm
  · refine iff_of_false ?_ (fun hfits => hsize hfits.1)
    rintro ⟨bucket, hupdate, hread⟩
    rw [bucketUpdate_resized h hsize] at hupdate
    cases hupdate
    obtain ⟨data, _, hpair⟩ := Except.map_eq_ok hread
    exact hsize (Prod.mk.inj hpair).2

section Operations

variable (hash : List UInt8 → UInt64 → UInt64)

/-- `mapSet` stays inside the buffers, and if it returns 0 then so does a
`mapGet` right behind it, which returns the value with its length. -/
def SetReadsBack (self : MapT) (key value : List UInt8) : Prop :=
  ∃ result, mapSet hash self key value = .ok result ∧
    (result.2 = 0 → ∀ size, mapGet hash result.1 key (some size) =
      .ok (some value, value.length))

/-- The key is not bound, or its bucket fits the value. -/
def SetFits (self : MapT) (key value : List UInt8) : Prop :=
  ∀ j bucket, stop hash self key = some j → self.bucket j = some bucket →
    bucket.Fits value

def ReadsBack (self : MapT) : Op → Prop
  | .set key value => SetReadsBack hash self key value
  | .del _ => True

def Fits (self : MapT) : Op → Prop
  | .set key value => SetFits hash self key value
  | .del _ => True

variable {hash} {self : MapT} {key value : List UInt8}

theorem mapGet_put {j : Nat} (hstop : stop hash self key = some j) {bucket : Bucket}
    (hbytes : bucket.bytes = key) (size : Nat) :
    mapGet hash (self.put j (some bucket)) key (some size) =
      (bucketRead bucket).map fun read => (some read.1, read.2) := by
  rw [mapGet_of_stop (stop_put_self hstop hbytes)
    (Table.bucket_put_self self (stop_lt hstop) (some bucket)), bucketRead]
  cases bucketData bucket <;> rfl

theorem setFits_of_none (hstop : stop hash self key = none) :
    SetFits hash self key value := by
  intro j bucket hj
  rw [hstop] at hj
  cases hj

theorem setFits_of_empty {j : Nat} (hstop : stop hash self key = some j)
    (hempty : self.bucket j = none) : SetFits hash self key value := by
  intro i bucket hi hbucket
  rw [hstop, Option.some.injEq] at hi
  rw [← hi, hempty] at hbucket
  cases hbucket

theorem setFits_iff {j : Nat} {bucket : Bucket} (hstop : stop hash self key = some j)
    (hbucket : self.bucket j = some bucket) :
    SetFits hash self key value ↔ bucket.Fits value := by
  constructor
  · exact fun h => h j bucket hstop hbucket
  · intro h i bucket' hi hbucket'
    rw [hstop, Option.some.injEq] at hi
    rw [← hi, hbucket, Option.some.injEq] at hbucket'
    rwa [← hbucket']

theorem setReadsBack_iff (h : value ≠ []) :
    SetReadsBack hash self key value ↔ SetFits hash self key value := by
  unfold SetReadsBack
  rcases mapSet_cases hash self key value with
    ⟨hstop, heq⟩ | ⟨j, hstop, hempty, heq⟩ | ⟨j, bucket, hstop, hbucket, heq⟩
  · exact iff_of_true ⟨_, heq, by simp⟩ (setFits_of_none hstop)
  · refine iff_of_true ⟨_, heq, fun _ size => ?_⟩ (setFits_of_empty hstop hempty)
    rw [mapGet_put hstop (bytes_bucketNew key value), bucketRead_new h]
    rfl
  · have hkey := bytes_of_stop hstop hbucket
    rw [setFits_iff hstop hbucket, ← bucketUpdate_reads_back_iff h, heq]
    constructor
    · rintro ⟨result, hresult, hget⟩
      obtain ⟨bucket', hupdate, rfl⟩ := Except.map_eq_ok hresult
      have hread := hget rfl 0
      rw [mapGet_put hstop ((bucketUpdate_ok hupdate).1.trans hkey)] at hread
      obtain ⟨read, hread', hpair⟩ := Except.map_eq_ok hread
      rw [Prod.mk.injEq, Option.some.injEq] at hpair
      refine ⟨bucket', hupdate, ?_⟩
      rw [hread', ← hpair.2, ← hpair.1]
    · rintro ⟨bucket', hupdate, hread⟩
      rw [hupdate]
      refine ⟨_, rfl, fun _ size => ?_⟩
      rw [mapGet_put hstop ((bucketUpdate_ok hupdate).1.trans hkey), hread]
      rfl

variable (hash)

/-- From any map and through any run that stores non-empty values, every store
is read back byte for byte, no copy leaving its buffer, if and only if every
store finds its key unbound or its bucket fitting. -/
theorem stores_read_back_iff (self : MapT) (ops : List Op)
    (hvalues : ∀ key value, Op.set key value ∈ ops → value ≠ []) :
    AlongM (step hash) (ReadsBack hash) self ops ↔
      AlongM (step hash) (Fits hash) self ops := by
  apply alongM_congr
  intro self op hop
  cases op with
  | set key value => exact setReadsBack_iff (hvalues key value hop)
  | del key => exact Iff.rfl

end Operations

theorem stores_read_back_iff_same_length :
    AlongM (step Internal.xxh3) (ReadsBack Internal.xxh3) (mapNew 2)
        [.set [97] [1], .set [97] [2]] ↔
      AlongM (step Internal.xxh3) (Fits Internal.xxh3) (mapNew 2)
        [.set [97] [1], .set [97] [2]] :=
  stores_read_back_iff Internal.xxh3 (mapNew 2) [.set [97] [1], .set [97] [2]]
    (by simp +contextual [or_imp])

/-- The second store of `a` is longer than the first, and one byte of it is
read back. -/
theorem longer_store_cut_short :
    ¬∀ (size : UInt64) (ops : List Op) (self : MapT) (key value : List UInt8),
      (∀ key value, Op.set key value ∈ ops → key ≠ [] ∧ value ≠ []) →
        (∀ key, Op.del key ∉ ops) →
          ops.foldlM (step Internal.xxh3) (mapNew size) = .ok self →
            key ≠ [] → value ≠ [] → SetReadsBack Internal.xxh3 self key value := by
  intro h
  obtain ⟨result, hset, hget⟩ := h 2 [.set [97] [1]]
    ⟨2, [none, some (bucketNew [97] [1])], rfl⟩ [97] [2, 3] (by simp) (by simp)
    (by decide +kernel) (by decide) (by decide)
  have hset' : mapSet Internal.xxh3 ⟨2, [none, some (bucketNew [97] [1])], rfl⟩ [97] [2, 3] =
      .ok (⟨2, [none, some { bucketNew [97] [1] with data := some [2, 3] }], rfl⟩, 0) := by
    decide +kernel
  rw [hset', Except.ok.injEq] at hset
  subst hset
  have hread := hget rfl 0
  revert hread
  decide +kernel

/-- After a shorter store the next read leaves the buffer. -/
example : (do
    let (self, _) ← mapSet Internal.xxh3 (mapNew 2) [97] [1, 2]
    let (self, _) ← mapSet Internal.xxh3 self [97] [3]
    mapGet Internal.xxh3 self [97] (some 0)) = .error .outOfBounds := by
  decide +kernel

end Doctrina.Map
