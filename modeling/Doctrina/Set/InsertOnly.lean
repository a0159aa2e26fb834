import Doctrina.Lib.Execution
import Doctrina.Set.Basic
/-!
# Sets to which keys are only added

Without removals every key of the array is found at its bucket, whatever the
hash, so that the set is the collection of the keys whose `setAdd` returned 0.
-/

namespace Doctrina.Set

open Doctrina.Internal Doctrina.Lib.Execution Doctrina.Lib.Probing

def Bucket.bytes (self : Bucket) : List UInt8 := self.key.getD []

@[simp] theorem bytes_bucketNew (key : List UInt8) : (bucketNew key).bytes = key :=
  duplicate_getD key

theorem bucketHaskey_iff (self : Bucket) (key : List UInt8) :
    bucketHaskey self key = true ↔ self.bytes = key :=
  haskey_iff self.keylen_eq key

theorem bucketKey_eq {self : Bucket} (h : self.bytes ≠ []) (size : Nat) :
    bucketKey self (some size) = .ok (self.bytes, self.bytes.length) := by
  have hlen : self.keylen = self.bytes.length := self.keylen_eq
  cases hkey : self.key with
  | none => simp [Bucket.bytes, hkey] at h
  | some key =>
      have hbytes : self.bytes = key := by simp [Bucket.bytes, hkey]
      rw [hbytes] at hlen ⊢
      simp [bucketKey, hkey, hlen, memcpyFrom, bind, Except.bind]

section Operations

variable (hash : List UInt8 → UInt64 → UInt64)

def SetT.members (self : SetT) : List (List UInt8) := Table.members Bucket.bytes self

/-- The invariant of a set without removals. -/
structure InsertOnly (set : SetT) : Prop where
  settled : Table.Settled Bucket.bytes (hash · SEED) set
  nonempty : ∀ key ∈ SetT.members set, key ≠ []

variable {hash} {self : SetT} {key : List UInt8}

theorem insertOnly_new (size : UInt64) : InsertOnly hash (setNew size) := by
  refine ⟨Table.settled_new size, ?_⟩
  simp [SetT.members, setNew]

namespace InsertOnly

variable (h : InsertOnly hash self)

include h

theorem stop_cases (key : List UInt8) :
    (key ∈ SetT.members self ∧ ∃ j bucket, self.stop Bucket.bytes key (hash key SEED) = some j ∧
      self.bucket j = some bucket ∧ bucket.bytes = key) ∨
    (key ∉ SetT.members self ∧ ∀ j, self.stop Bucket.bytes key (hash key SEED) = some j →
      self.bucket j = none) := by
  by_cases hmem : key ∈ SetT.members self
  · obtain ⟨j, hj⟩ := Table.mem_members.mp hmem
    obtain ⟨bucket, hbucket, hbytes⟩ := Table.keys_eq_some_iff.mp hj
    exact .inl ⟨hmem, j, bucket, h.settled.stop_eq hj, hbucket, hbytes⟩
  · refine .inr ⟨hmem, fun j hstop => ?_⟩
    cases hbucket : self.bucket j with
    | none => rfl
    | some bucket =>
        have hkey := Table.bytes_of_stop hstop hbucket
        exact absurd (Table.mem_members.mpr
          ⟨j, Table.keys_eq_some_iff.mpr ⟨bucket, hbucket, hkey⟩⟩) hmem

theorem search_mem {ρ : Type} (hmem : key ∈ SetT.members self) (empty : Nat → ρ)
    (found : Nat → Bucket → ρ) (full : ρ) :
    ∃ j bucket, bucket.bytes = key ∧
      self.search (bucketHaskey · key) (hash key SEED) empty found full = found j bucket := by
  rcases h.stop_cases key with ⟨_, j, bucket, hstop, hbucket, hbytes⟩ | ⟨hnot, _⟩
  · refine ⟨j, bucket, hbytes, ?_⟩
    rw [Table.search_eq (bucketHaskey_iff · key), hstop]
    simp [hbucket]
  · exact absurd hmem hnot

theorem search_not_mem {ρ : Type} (hmem : key ∉ SetT.members self) (empty : Nat → ρ)
    (found : Nat → Bucket → ρ) (full : ρ) :
    (self.stop Bucket.bytes key (hash key SEED) = none ∧
      self.search (bucketHaskey · key) (hash key SEED) empty found full = full) ∨
    (∃ j, self.stop Bucket.bytes key (hash key SEED) = some j ∧ self.bucket j = none ∧
      self.search (bucketHaskey · key) (hash key SEED) empty found full = empty j) := by
  rcases h.stop_cases key with ⟨hin, _⟩ | ⟨_, hempty⟩
  · exact absurd hin hmem
  · rw [Table.search_eq (bucketHaskey_iff · key)]
    cases hstop : self.stop Bucket.bytes key (hash key SEED) with
    | none => simp
    | some j => simp [hempty j hstop]

theorem setExists_of_mem (hmem : key ∈ SetT.members self) : setExists hash self key = 1 := by
  obtain ⟨_, _, _, heq⟩ := h.search_mem hmem (fun _ => (0 : Int)) (fun _ _ => 1) 0
  exact heq

theorem setExists_of_not_mem (hmem : key ∉ SetT.members self) :
    setExists hash self key = 0 := by
  rcases h.search_not_mem hmem (fun _ => (0 : Int)) (fun _ _ => 1) 0
    with ⟨_, heq⟩ | ⟨_, _, _, heq⟩
  · exact heq
  · exact heq

theorem setGet_of_mem (hmem : key ∈ SetT.members self) (size : Nat) :
    setGet hash self key (some size) = .ok (some key, some key.length) := by
  obtain ⟨_, bucket, hbytes, heq⟩ := h.search_mem hmem (fun _ => .ok (none, some size))
    (fun _ bucket => (bucketKey bucket (some size)).map fun read => (some read.1, some read.2))
    (.ok (none, some size))
  have hne : bucket.bytes ≠ [] := by
    rw [hbytes]
    exact h.nonempty key hmem
  rw [setGet, heq, bucketKey_eq hne, hbytes]
  rfl

theorem setGet_of_not_mem (hmem : key ∉ SetT.members self) (size : Option Nat) :
    setGet hash self key size = .ok (none, size) := by
  rcases h.search_not_mem hmem (fun _ => .ok (none, size))
      (fun _ bucket => (bucketKey bucket size).map fun read => (some read.1, some read.2))
      (.ok (none, size))
    with ⟨_, heq⟩ | ⟨_, _, _, heq⟩
  · exact heq
  · exact heq

theorem setAdd_of_mem (hmem : key ∈ SetT.members self) : setAdd hash self key = (self, 0) := by
  obtain ⟨_, _, _, heq⟩ := h.search_mem hmem
    (fun j => (self.put j (some (bucketNew key)), (0 : Int))) (fun _ _ => (self, 0)) (self, -1)
  exact heq

theorem setAdd_of_not_mem (hmem : key ∉ SetT.members self) :
    (self.stop Bucket.bytes key (hash key SEED) = none ∧ setAdd hash self key = (self, -1)) ∨
    (∃ j, self.stop Bucket.bytes key (hash key SEED) = some j ∧ self.bucket j = none ∧
      setAdd hash self key = (self.put j (some (bucketNew key)), 0)) :=
  h.search_not_mem hmem _ _ _

/-- The key joins the members when its `setAdd` returns 0. -/
theorem step (hkey : key ≠ []) :
    InsertOnly hash (setAdd hash self key).1 ∧
      ∀ k, k ∈ SetT.members (setAdd hash self key).1 ↔
        k ∈ SetT.members self ∨ (k = key ∧ (setAdd hash self key).2 = 0) := by
  by_cases hmem : key ∈ SetT.members self
  · rw [h.setAdd_of_mem hmem]
    refine ⟨h, fun k => ⟨.inl, fun hk => ?_⟩⟩
    rcases hk with hk | ⟨rfl, _⟩
    · exact hk
    · exact hmem
  · rcases h.setAdd_of_not_mem hmem with ⟨_, heq⟩ | ⟨j, hstop, hempty, heq⟩
    · rw [heq]
      exact ⟨h, fun k => by simp⟩
    · have hmembers : ∀ k, k ∈ SetT.members (self.put j (some (bucketNew key))) ↔
          k ∈ SetT.members self ∨ k = key := by
        intro k
        rw [SetT.members, SetT.members,
          Table.mem_members_put (Table.stop_lt hstop) hempty, bytes_bucketNew]
      rw [heq]
      refine ⟨⟨h.settled.put hstop hempty (bytes_bucketNew key), fun k hk => ?_⟩, ?_⟩
      · rcases (hmembers k).mp hk with hk | rfl
        · exact h.nonempty k hk
        · exact hkey
      · intro k
        simp [hmembers k]

end InsertOnly

/-! ## The loop of `set_getall` -/

/-- The buffer and the size after some keys were copied. -/
def concat (keys : List (List UInt8)) : Option (List UInt8) × Nat :=
  (if keys = [] then none else some keys.flatten, keys.flatten.length)

theorem getallBuffer_eq (keys : List (List UInt8)) {size : Nat} (hsize : 0 < size) :
    ∃ rest, rest.length = size ∧
      getallBuffer (concat keys).1 size (keys.flatten.length + size) =
        .ok (keys.flatten ++ rest) := by
  refine ⟨List.replicate size 0, List.length_replicate, ?_⟩
  by_cases hkeys : keys = []
  · simp [concat, hkeys, getallBuffer]
  · have hne : keys.flatten.length + size ≠ 0 := by omega
    have htake : keys.flatten.take (keys.flatten.length + size) = keys.flatten :=
      List.take_of_length_le (Nat.le_add_right _ _)
    simp only [concat, hkeys, if_false, getallBuffer, realloc, hne, htake,
      Nat.add_sub_cancel_left]

theorem getallStep_some {bucket : Bucket} (hne : bucket.bytes ≠ []) (keys : List (List UInt8)) :
    getallStep (concat keys) (some bucket) = .ok (concat (keys ++ [bucket.bytes])) := by
  obtain ⟨rest, hrest, hbuffer⟩ :=
    getallBuffer_eq keys (List.length_pos_iff.mpr hne)
  have hcopy := memcpyAt_append keys.flatten hrest
  have hoverall : (concat keys).2 = keys.flatten.length := rfl
  simp only [getallStep, bucketKey_eq hne, bind, Except.bind, hoverall, hbuffer,
    Nat.add_sub_cancel, hcopy, pure, Except.pure]
  simp [concat]

theorem foldlM_getallStep {buckets : List (Option Bucket)}
    (hne : ∀ bucket, some bucket ∈ buckets → bucket.bytes ≠ []) (keys : List (List UInt8)) :
    buckets.foldlM getallStep (concat keys) =
      .ok (concat (keys ++ buckets.filterMap (Option.map Bucket.bytes))) := by
  induction buckets generalizing keys with
  | nil => simp [pure, Except.pure]
  | cons bucket buckets ih =>
      have htail : ∀ bucket, some bucket ∈ buckets → bucket.bytes ≠ [] :=
        fun bucket hmem => hne bucket (List.mem_cons_of_mem _ hmem)
      rw [List.foldlM_cons]
      cases bucket with
      | none => exact ih htail keys
      | some bucket =>
          rw [getallStep_some (hne bucket List.mem_cons_self)]
          change buckets.foldlM getallStep (concat (keys ++ [bucket.bytes])) = _
          rw [ih htail, List.append_assoc]
          rfl

theorem setGetall_of_nonempty (hne : ∀ key ∈ SetT.members self, key ≠ []) (size : Nat) :
    setGetall self (some size) = .ok (concat (SetT.members self)) := by
  refine foldlM_getallStep (fun bucket hmem => hne bucket.bytes ?_) []
  exact List.mem_filterMap.mpr ⟨some bucket, hmem, rfl⟩

theorem InsertOnly.setGetall_eq (h : InsertOnly hash self) (size : Nat) :
    setGetall self (some size) = .ok (concat (SetT.members self)) :=
  setGetall_of_nonempty h.nonempty size

/-! ## Runs of `setAdd` -/

/-- A set and the keys for which a `setAdd` has returned 0. -/
structure AddRun where
  set : SetT
  added : List (List UInt8)

variable (hash)

def addStep (run : AddRun) (key : List UInt8) : AddRun where
  set := (setAdd hash run.set key).1
  added := if (setAdd hash run.set key).2 = 0 then run.added ++ [key] else run.added

/-- Everything the functions of set.c show of the set is decided by the keys
added to it. -/
structure ShowsExactly (set : SetT) (added : List (List UInt8)) : Prop where
  present : ∀ key ∈ added, setExists hash set key = 1 ∧
    ∀ size, setGet hash set key (some size) = .ok (some key, some key.length)
  absent : ∀ key, key ∉ added → setExists hash set key = 0 ∧
    ∀ size, setGet hash set key size = .ok (none, size)
  again : ∀ key ∈ added, setAdd hash set key = (set, 0)
  nodup : (SetT.members set).Nodup
  mem_members : ∀ key, key ∈ SetT.members set ↔ key ∈ added
  getall : ∀ size, setGetall set (some size) = .ok
    (if SetT.members set = [] then none else some (SetT.members set).flatten,
      ((SetT.members set).map List.length).sum)

variable {hash}

theorem InsertOnly.showsExactly {added : List (List UInt8)} (h : InsertOnly hash self)
    (hadded : ∀ key, key ∈ SetT.members self ↔ key ∈ added) :
    ShowsExactly hash self added where
  present key hkey :=
    have hmem := (hadded key).mpr hkey
    ⟨h.setExists_of_mem hmem, h.setGet_of_mem hmem⟩
  absent key hkey :=
    have hmem := (hadded key).not.mpr hkey
    ⟨h.setExists_of_not_mem hmem, h.setGet_of_not_mem hmem⟩
  again key hkey := h.setAdd_of_mem ((hadded key).mpr hkey)
  nodup := h.settled.nodup_members
  mem_members := hadded
  getall size := by
    rw [h.setGetall_eq, concat, List.length_flatten]

/-- The members are the keys for which 0 was returned. -/
def AddRun.Agrees (hash : List UInt8 → UInt64 → UInt64) (run : AddRun) : Prop :=
  InsertOnly hash run.set ∧ ∀ key, key ∈ SetT.members run.set ↔ key ∈ run.added

theorem AddRun.Agrees.step {run : AddRun} {key : List UInt8} (h : run.Agrees hash)
    (hkey : key ≠ []) : (addStep hash run key).Agrees hash := by
  obtain ⟨hinv, hmembers⟩ := h.1.step hkey
  refine ⟨hinv, fun k => (hmembers k).trans ?_⟩
  rw [h.2 k, addStep]
  by_cases hzero : (setAdd hash run.set key).2 = 0
  · simp [hzero]
  · simp [hzero]

/-- From an empty set of any size, and whatever the hash, the set shows
exactly the keys for which a `setAdd` has returned 0. -/
theorem insertOnly_shows_exactly (hash : List UInt8 → UInt64 → UInt64) (size : UInt64)
    (keys : List (List UInt8)) (hkeys : ∀ key ∈ keys, key ≠ []) :
    ShowsExactly hash (keys.foldl (addStep hash) ⟨setNew size, []⟩).set
      (keys.foldl (addStep hash) ⟨setNew size, []⟩).added := by
  have hinit : AddRun.Agrees hash ⟨setNew size, []⟩ :=
    ⟨insertOnly_new size, fun key => by simp [SetT.members, setNew]⟩
  have hrun : AddRun.Agrees hash (keys.foldl (addStep hash) ⟨setNew size, []⟩) :=
    invariant_foldl (fun run key h hkey => h.step hkey) hinit (along_of_forall hkeys)
  exact hrun.1.showsExactly hrun.2

/-- The last bucket number of the hash wraps to 0 in a table of three. -/
theorem insertOnly_shows_exactly_wrap :
    ShowsExactly (fun _ _ => 0 - 1)
      ([[97], [98], [97], [99]].foldl (addStep fun _ _ => 0 - 1) ⟨setNew 3, []⟩).set
      ([[97], [98], [97], [99]].foldl (addStep fun _ _ => 0 - 1) ⟨setNew 3, []⟩).added :=
  insertOnly_shows_exactly (fun _ _ => 0 - 1) 3 [[97], [98], [97], [99]] (by decide)

end Operations

end Doctrina.Set
