import Doctrina.Internal.Probes
import Doctrina.Lib.Probing
/-!
# The bucket arrays of map.c and set.c

Both files keep an array of buckets behind NULL-able pointers, compare a key
with the one in a bucket in the same way, and search with the same loop.
`keys` forgets everything of an array but which key each bucket holds; the
loop stops where the search of `Lib.Probing` stops.
-/

namespace Doctrina.Internal

open Doctrina.Lib.Probing

structure Table (β : Type) where
  size : UInt64
  buckets : List (Option β)
  length_buckets : buckets.length = size.toNat
  deriving DecidableEq

/-- `calloc` and `memcpy` of an argument; nothing is allocated for an empty
one. -/
def duplicate (bytes : List UInt8) : Option (List UInt8) :=
  if bytes.length > 0 then some bytes else none

theorem duplicate_getD (bytes : List UInt8) : (duplicate bytes).getD [] = bytes := by
  cases bytes <;> rfl

theorem length_duplicate (bytes : List UInt8) :
    bytes.length = ((duplicate bytes).getD []).length := by
  rw [duplicate_getD]

/-- `keylen == other.length && memcmp(key, other, other.length) == 0`. -/
def haskey (keylen : Nat) (key : Option (List UInt8)) (other : List UInt8) : Bool :=
  keylen = other.length ∧ (key.getD []).take other.length = other

theorem haskey_iff {keylen : Nat} {key : Option (List UInt8)}
    (hlen : keylen = (key.getD []).length) (other : List UInt8) :
    haskey keylen key other = true ↔ key.getD [] = other := by
  rw [haskey, decide_eq_true_eq, hlen]
  constructor
  · intro h
    rw [← h.2, ← h.1, List.take_length]
  · intro heq
    subst heq
    exact ⟨rfl, List.take_length⟩

namespace Table

variable {β ρ : Type}

def new (size : UInt64) : Table β :=
  ⟨size, List.replicate size.toNat none, List.length_replicate⟩

/-- `self->buckets[j]`, for an index inside the array. -/
def bucket (self : Table β) (j : Nat) : Option β := self.buckets.getD j none

def put (self : Table β) (j : Nat) (entry : Option β) : Table β where
  size := self.size
  buckets := self.buckets.set j entry
  length_buckets := by rw [List.length_set, self.length_buckets]

/-- The loop over `j = (hash + i) % self->size`: it returns `empty j` at an
empty bucket, goes on at a bucket without the key, returns `found` at one with
it, and `full` once all `i` are used up. -/
def search (self : Table β) (haskey : β → Bool) (hash : UInt64) (empty : Nat → ρ)
    (found : Nat → β → ρ) (full : ρ) : ρ :=
  ((probes self.size hash).findSome? fun j =>
    match self.bucket j with
    | none => some (empty j)
    | some entry => if haskey entry = false then none else some (found j entry)).getD full

@[simp] theorem bucket_new (size : UInt64) (j : Nat) : (new size : Table β).bucket j = none := by
  rw [bucket, new, List.getD_eq_getElem?_getD, List.getElem?_replicate]
  split <;> rfl

theorem lt_of_bucket {self : Table β} {j : Nat} {entry : β} (h : self.bucket j = some entry) :
    j < self.size.toNat := by
  rw [← self.length_buckets]
  by_contra hj
  rw [bucket, List.getD_eq_getElem?_getD, List.getElem?_eq_none (Nat.not_lt.mp hj)] at h
  cases h

theorem buckets_eq_map_range (self : Table β) :
    self.buckets = (List.range self.size.toNat).map self.bucket := by
  apply List.ext_getElem
  · rw [List.length_map, List.length_range, self.length_buckets]
  · intro i hi _
    rw [List.getElem_map, List.getElem_range, bucket, List.getD_eq_getElem?_getD,
      List.getElem?_eq_getElem hi, Option.getD_some]

@[simp] theorem size_put (self : Table β) (j : Nat) (entry : Option β) :
    (self.put j entry).size = self.size := rfl

theorem bucket_put (self : Table β) {j : Nat} (hj : j < self.size.toNat)
    (entry : Option β) (i : Nat) :
    (self.put j entry).bucket i = if i = j then entry else self.bucket i := by
  have hlen : j < self.buckets.length := by
    rw [self.length_buckets]
    exact hj
  rw [bucket, put, bucket, List.getD_eq_getElem?_getD, List.getElem?_set]
  by_cases h : i = j
  · subst h
    simp [hlen]
  · rw [if_neg (Ne.symm h), if_neg h, List.getD_eq_getElem?_getD]

theorem bucket_put_self (self : Table β) {j : Nat} (hj : j < self.size.toNat)
    (entry : Option β) : (self.put j entry).bucket j = entry := by
  rw [bucket_put self hj, if_pos rfl]

theorem bucket_put_ne (self : Table β) {i j : Nat} (hj : j < self.size.toNat)
    (entry : Option β) (hij : i ≠ j) : (self.put j entry).bucket i = self.bucket i := by
  rw [bucket_put self hj, if_neg hij]

theorem put_put_none (self : Table β) {j : Nat} (hj : j < self.size.toNat)
    (hempty : self.bucket j = none) (entry : Option β) :
    (self.put j entry).put j none = self := by
  have hlen : j < self.buckets.length := by
    rw [self.length_buckets]
    exact hj
  have hnone : self.buckets[j] = none := by
    rwa [bucket, List.getD_eq_getElem?_getD, List.getElem?_eq_getElem hlen] at hempty
  have hback : (self.buckets.set j entry).set j none = self.buckets := by
    rw [List.set_set, ← hnone, List.set_getElem_self]
  cases self
  simpa only [put, mk.injEq, true_and] using hback

section Keys

variable (bytes : β → List UInt8)

def keys (self : Table β) (j : Nat) : Option (List UInt8) := (self.bucket j).map bytes

/-- The bucket where a search for the key stops. -/
def stop (self : Table β) (key : List UInt8) (hash : UInt64) : Option Nat :=
  probe (self.keys bytes) key (probes self.size hash)

variable {bytes} {self : Table β} {key : List UInt8} {hash : UInt64} {j : Nat}

@[simp] theorem keys_new (size : UInt64) : (new size).keys bytes = fun _ => none := by
  funext j
  simp [keys]

theorem keys_put (hj : j < self.size.toNat) (entry : Option β) :
    (self.put j entry).keys bytes =
      Function.update (self.keys bytes) j (entry.map bytes) := by
  funext i
  rw [keys, bucket_put self hj, Function.update_apply]
  split <;> rfl

theorem keys_put_same (hj : j < self.size.toNat) {entry entry' : β}
    (hentry : self.bucket j = some entry) (hbytes : bytes entry' = bytes entry) :
    (self.put j (some entry')).keys bytes = self.keys bytes := by
  have hkey : (some entry').map bytes = self.keys bytes j := by
    rw [keys, hentry, Option.map_some, Option.map_some, hbytes]
  rw [keys_put hj, hkey, Function.update_eq_self]

theorem keys_eq_some_iff :
    self.keys bytes j = some key ↔ ∃ entry, self.bucket j = some entry ∧ bytes entry = key := by
  simp [keys]

theorem keys_eq_none_iff : self.keys bytes j = none ↔ self.bucket j = none := by
  simp [keys]

theorem stop_lt (hstop : self.stop bytes key hash = some j) : j < self.size.toNat :=
  lt_of_mem_probes (List.mem_of_find?_eq_some hstop)

theorem bytes_of_stop {entry : β} (hstop : self.stop bytes key hash = some j)
    (hentry : self.bucket j = some entry) : bytes entry = key := by
  have hj := (probe_eq_some_iff.mp hstop).1
  simpa [keys, hentry] using hj

theorem stop_put_self {entry : β} (hstop : self.stop bytes key hash = some j)
    (hbytes : bytes entry = key) : (self.put j (some entry)).stop bytes key hash = some j := by
  rw [stop, keys_put (stop_lt hstop), Option.map_some, hbytes]
  exact probe_fill_self hstop

/-- The loop acts on the bucket where the search for the key stops. -/
theorem search_eq {haskey : β → Bool} (hkey : ∀ entry, haskey entry = true ↔ bytes entry = key)
    (empty : Nat → ρ) (found : Nat → β → ρ) (full : ρ) :
    self.search haskey hash empty found full =
      match self.stop bytes key hash with
      | none => full
      | some j =>
          match self.bucket j with
          | none => empty j
          | some entry => found j entry := by
  rw [search, findSome?_eq_probe (t := self.keys bytes) (k := key), ← stop]
  · cases hstop : self.stop bytes key hash with
    | none => rfl
    | some j =>
        cases hentry : self.bucket j with
        | none => simp [hentry]
        | some entry => simp [hentry, (hkey entry).mpr (bytes_of_stop hstop hentry)]
  · intro j
    cases hentry : self.bucket j with
    | none => simp [Passed, keys, hentry]
    | some entry => simp [Passed, keys, hentry, ← hkey entry]

theorem search_cases {haskey : β → Bool}
    (hkey : ∀ entry, haskey entry = true ↔ bytes entry = key) (empty : Nat → ρ)
    (found : Nat → β → ρ) (full : ρ) :
    (self.stop bytes key hash = none ∧
      self.search haskey hash empty found full = full) ∨
    (∃ j, self.stop bytes key hash = some j ∧ self.bucket j = none ∧
      self.search haskey hash empty found full = empty j) ∨
    (∃ j entry, self.stop bytes key hash = some j ∧ self.bucket j = some entry ∧
      self.search haskey hash empty found full = found j entry) := by
  rw [search_eq hkey]
  cases hstop : self.stop bytes key hash with
  | none => simp
  | some j => cases hentry : self.bucket j <;> simp [hentry]

/-! ## Arrays whose buckets are only filled -/

/-- Every key is found, at the bucket that holds it. -/
def Settled (bytes : β → List UInt8) (hash : List UInt8 → UInt64) (self : Table β) : Prop :=
  Direct (self.keys bytes) fun key => probes self.size (hash key)

section Settled

variable {hash : List UInt8 → UInt64}

theorem settled_new (size : UInt64) : Settled bytes hash (new size) := by
  rw [Settled, keys_new]
  exact direct_empty

theorem Settled.stop_eq (h : Settled bytes hash self) (hj : self.keys bytes j = some key) :
    self.stop bytes key (hash key) = some j := h j key hj

theorem Settled.put (h : Settled bytes hash self)
    (hstop : self.stop bytes key (hash key) = some j) (hempty : self.bucket j = none)
    {entry : β} (hbytes : bytes entry = key) :
    Settled bytes hash (self.put j (some entry)) := by
  rw [Settled, keys_put (stop_lt hstop), Option.map_some, hbytes]
  exact Direct.fill h hstop (keys_eq_none_iff.mpr hempty)

end Settled

variable (bytes)

/-- The keys in the order of the buckets. -/
def members (self : Table β) : List (List UInt8) := self.buckets.filterMap (Option.map bytes)

variable {bytes}

@[simp] theorem members_new (size : UInt64) : (new size).members bytes = [] := by
  simp [members, new]

theorem mem_members : key ∈ self.members bytes ↔ ∃ j, self.keys bytes j = some key := by
  rw [members, List.mem_filterMap]
  constructor
  · intro h
    obtain ⟨entry, hmem, hentry⟩ := h
    obtain ⟨j, hj⟩ := List.mem_iff_getElem?.mp hmem
    refine ⟨j, ?_⟩
    rw [keys, bucket, List.getD_eq_getElem?_getD, hj]
    exact hentry
  · intro h
    obtain ⟨j, hj⟩ := h
    rw [keys, bucket, List.getD_eq_getElem?_getD] at hj
    cases hentry : self.buckets[j]? with
    | none => simp [hentry] at hj
    | some entry =>
        rw [hentry] at hj
        exact ⟨entry, List.mem_of_getElem? hentry, hj⟩

theorem members_put_perm (bytes : β → List UInt8) (hj : j < self.size.toNat)
    (hempty : self.bucket j = none) (entry : β) :
    ((self.put j (some entry)).members bytes).Perm (bytes entry :: self.members bytes) := by
  have hlen : j < self.buckets.length := by
    rw [self.length_buckets]
    exact hj
  have hnone : self.buckets[j] = none := by
    rwa [bucket, List.getD_eq_getElem?_getD, List.getElem?_eq_getElem hlen] at hempty
  have hold : self.buckets = self.buckets.take j ++ none :: self.buckets.drop (j + 1) := by
    rw [← hnone, List.getElem_cons_drop, List.take_append_drop]
  have hnew : (self.put j (some entry)).buckets =
      self.buckets.take j ++ some entry :: self.buckets.drop (j + 1) := by
    change self.buckets.set j (some entry) = _
    rw [List.set_eq_take_append_cons_drop, if_pos hlen]
  have hmembers : self.members bytes = (self.buckets.take j).filterMap (Option.map bytes) ++
      (self.buckets.drop (j + 1)).filterMap (Option.map bytes) := by
    rw [members]
    conv => enter [1, 2]; rw [hold]
    rw [List.filterMap_append, List.filterMap_cons]
    rfl
  rw [hmembers, members, hnew, List.filterMap_append, List.filterMap_cons]
  exact List.perm_middle

theorem mem_members_put (hj : j < self.size.toNat) (hempty : self.bucket j = none)
    {entry : β} : key ∈ (self.put j (some entry)).members bytes ↔
      key ∈ self.members bytes ∨ key = bytes entry := by
  rw [(members_put_perm bytes hj hempty entry).mem_iff, List.mem_cons, or_comm]

theorem Settled.nodup_members {hash : List UInt8 → UInt64} (h : Settled bytes hash self) :
    (self.members bytes).Nodup := by
  rw [List.Nodup, members, List.pairwise_filterMap, List.pairwise_iff_getElem]
  intro i j hi hj hij key hkey key' hkey' heq
  subst heq
  have hat : ∀ (l : Nat) (hl : l < self.buckets.length),
      (self.buckets[l]).map bytes = some key → self.keys bytes l = some key := by
    intro l hl hmap
    rw [keys, bucket, List.getD_eq_getElem?_getD, List.getElem?_eq_getElem hl]
    exact hmap
  have heq := Direct.injective h (hat i hi hkey) (hat j hj hkey')
  omega

/-- A search that finds no bucket to stop at has passed keys in all of them, if
the size divides the word size. -/
theorem length_members_of_stop (hsize : self.size.toNat ∣ 2 ^ 64)
    (hstop : self.stop bytes key hash = none) :
    (self.members bytes).length = self.size.toNat := by
  rw [members, List.filterMap_length_eq_length.mpr, self.length_buckets]
  intro entry hentry
  obtain ⟨j, hj, heq⟩ := List.mem_iff_getElem.mp hentry
  have hpassed := probe_eq_none_iff.mp hstop j
    (mem_probes hsize hash (by rwa [← self.length_buckets]))
  have hkeys : self.keys bytes j = entry.map bytes := by
    rw [keys, bucket, List.getD_eq_getElem?_getD, List.getElem?_eq_getElem hj, heq]
    rfl
  rw [Passed, hkeys] at hpassed
  exact Option.isSome_iff_ne_none.mpr hpassed.1

end Keys

end Table

end Doctrina.Internal
