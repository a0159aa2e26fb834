import Doctrina.Internal.Hash
import Doctrina.Set.InsertOnly
/-!
# Sets from which keys are removed

`setRemove` empties a bucket and leaves no mark, while every search ends at
the first empty bucket.  As long as no removal empties a bucket in front of
another key the set stays as good as one without removals; the first one that
does leaves a key that is stored and not found, and that the next `setAdd`
stores a second time.
-/

namespace Doctrina.Set

open Doctrina.Internal Doctrina.Lib.Execution Doctrina.Lib.Probing

inductive Op
  | add (key : List UInt8)
  | remove (key : List UInt8)

def Op.key : Op → List UInt8
  | .add key => key
  | .remove key => key

section Operations

variable (hash : List UInt8 → UInt64 → UInt64)

def step (self : SetT) : Op → SetT
  | .add key => (setAdd hash self key).1
  | .remove key => (setRemove hash self key).1

/-- No key is stored twice, every stored key is found, and `setGetall` lists
the keys that are found, each once. -/
structure NoDuplicates (set : SetT) : Prop where
  once : ∀ i j key, set.keys Bucket.bytes i = some key → set.keys Bucket.bytes j = some key →
    i = j
  found : ∀ j key, set.keys Bucket.bytes j = some key → setExists hash set key = 1
  getall : ∃ keys : List (List UInt8), keys.Nodup ∧
    (∀ key, key ∈ keys ↔ setExists hash set key = 1) ∧
    ∀ size, setGetall set (some size) = .ok
      (if keys = [] then none else some keys.flatten, (keys.map List.length).sum)

/-- The bucket that `setRemove` of `key` empties lies on the way of a
successful lookup of `other`. -/
def Hides (self : SetT) (key other : List UInt8) : Prop :=
  setExists hash self other = 1 ∧
    ∃ j, self.stop Bucket.bytes key (hash key SEED) = some j ∧
      j ∈ crossed (self.keys Bucket.bytes) other (probes self.size (hash other SEED))

def HidesNone (self : SetT) : Op → Prop
  | .add _ => True
  | .remove key => ∀ other, key ≠ other → ¬Hides hash self key other

def KeysNonempty (self : SetT) : Prop := ∀ key ∈ SetT.members self, key ≠ []

/-- The call is no addition of the empty key that finds a free bucket. -/
def FillsNonempty (self : SetT) : Op → Prop
  | .add key => key = [] → ∀ j, self.stop Bucket.bytes key (hash key SEED) = some j →
      self.bucket j ≠ none
  | .remove _ => True

variable {hash} {self : SetT} {key : List UInt8}

theorem setExists_eq_one_iff : setExists hash self key = 1 ↔
    Found (self.keys Bucket.bytes) key (probes self.size (hash key SEED)) := by
  rw [setExists, Table.search_eq (bucketHaskey_iff · key)]
  cases hstop : self.stop Bucket.bytes key (hash key SEED) with
  | none =>
      refine iff_of_false (by simp) ?_
      rintro ⟨j, hprobe, _⟩
      rw [Table.stop, hprobe] at hstop
      cases hstop
  | some j =>
      cases hbucket : self.bucket j with
      | none =>
          refine iff_of_false (by simp [hbucket]) ?_
          rintro ⟨i, hprobe, hi⟩
          rw [Table.stop, hprobe, Option.some.injEq] at hstop
          rw [hstop, Table.keys_eq_none_iff.mpr hbucket] at hi
          cases hi
      | some bucket =>
          refine iff_of_true (by simp [hbucket]) ⟨j, hstop, ?_⟩
          exact Table.keys_eq_some_iff.mpr ⟨bucket, hbucket, Table.bytes_of_stop hstop hbucket⟩

namespace InsertOnly

variable (h : InsertOnly hash self)

include h

theorem mem_members_iff (key : List UInt8) :
    key ∈ SetT.members self ↔ setExists hash self key = 1 := by
  rw [setExists_eq_one_iff, Direct.found_iff h.settled]
  exact Table.mem_members

theorem noDuplicates : NoDuplicates hash self where
  once _ _ _ hi hj := Direct.injective h.settled hi hj
  found _ _ hj := setExists_eq_one_iff.mpr ((Direct.found_iff h.settled).mpr ⟨_, hj⟩)
  getall := by
    refine ⟨SetT.members self, h.settled.nodup_members, h.mem_members_iff, fun size => ?_⟩
    rw [h.setGetall_eq, concat, List.length_flatten]

theorem setRemove_of_not_mem (hmem : key ∉ SetT.members self) :
    setRemove hash self key = (self, -1) := by
  rcases h.search_not_mem hmem (fun _ => (self, (-1 : Int)))
      (fun j _ => (self.put j none, 0)) (self, -1) with ⟨_, heq⟩ | ⟨_, _, _, heq⟩
  · exact heq
  · exact heq

theorem setRemove_of_mem (hmem : key ∈ SetT.members self) :
    ∃ j, self.stop Bucket.bytes key (hash key SEED) = some j ∧
      self.keys Bucket.bytes j = some key ∧ setRemove hash self key = (self.put j none, 0) := by
  obtain ⟨j, hj⟩ := Table.mem_members.mp hmem
  obtain ⟨bucket, hbucket, _⟩ := Table.keys_eq_some_iff.mp hj
  refine ⟨j, h.settled.stop_eq hj, hj, ?_⟩
  rw [setRemove, Table.search_eq (bucketHaskey_iff · key), h.settled.stop_eq hj]
  simp only [hbucket]

theorem settled_setRemove_iff :
    Table.Settled Bucket.bytes (hash · SEED) (setRemove hash self key).1 ↔
      ∀ other, key ≠ other → ¬Hides hash self key other := by
  by_cases hmem : key ∈ SetT.members self
  · obtain ⟨j, hstop, hj, heq⟩ := h.setRemove_of_mem hmem
    rw [heq, Table.Settled, Table.keys_put (Table.stop_lt hstop), Option.map_none,
      Table.size_put, Direct.erase_iff h.settled hj]
    constructor
    · rintro hcrossed other hne ⟨hother, j', hstop', hmem'⟩
      rw [hstop, Option.some.injEq] at hstop'
      subst hstop'
      obtain ⟨i, hi⟩ := (Direct.found_iff h.settled).mp (setExists_eq_one_iff.mp hother)
      exact hcrossed i other hi hne hmem'
    · intro hhides i other hi hne hmem'
      have hother := setExists_eq_one_iff.mpr ((Direct.found_iff h.settled).mpr ⟨i, hi⟩)
      exact hhides other hne ⟨hother, j, hstop, hmem'⟩
  · rw [h.setRemove_of_not_mem hmem]
    refine iff_of_true h.settled ?_
    rintro other _ ⟨_, j, hstop, hmem'⟩
    have hnone := (h.stop_cases key).resolve_left (fun hin => hmem hin.1)
    have hpassed := passed_of_mem_crossed hmem'
    exact hpassed.1 (Table.keys_eq_none_iff.mpr (hnone.2 j hstop))

end InsertOnly

theorem NoDuplicates.settled (h : NoDuplicates hash self) :
    Table.Settled Bucket.bytes (hash · SEED) self := by
  intro j key hj
  obtain ⟨i, hprobe, hi⟩ := setExists_eq_one_iff.mp (h.found j key hj)
  rwa [h.once j i key hj hi]

theorem NoDuplicates.insertOnly (h : NoDuplicates hash self)
    (hne : KeysNonempty self) : InsertOnly hash self :=
  ⟨h.settled, hne⟩

theorem keysNonempty_new (size : UInt64) : KeysNonempty (setNew size) := by
  simp [KeysNonempty, SetT.members, setNew]

theorem nonempty_put {j : Nat} (hj : j < self.size.toNat) {entry : Option Bucket}
    (hne : KeysNonempty self) (hentry : ∀ bucket, entry = some bucket → bucket.bytes ≠ []) :
    KeysNonempty (self.put j entry) := by
  intro key hkey
  obtain ⟨i, hi⟩ := Table.mem_members.mp hkey
  rw [Table.keys_put hj, Function.update_apply] at hi
  split at hi
  · obtain ⟨bucket, hbucket, rfl⟩ := Option.map_eq_some_iff.mp hi
    exact hentry bucket hbucket
  · exact hne key (Table.mem_members.mpr ⟨i, hi⟩)

theorem fillsNonempty_of_key {op : Op} (hop : op.key ≠ []) : FillsNonempty hash self op := by
  cases op with
  | add key => exact fun hkey => absurd hkey hop
  | remove key => trivial

theorem nonempty_step (hne : KeysNonempty self) {op : Op} (hop : FillsNonempty hash self op) :
    KeysNonempty (step hash self op) := by
  cases op with
  | add key =>
      rw [step, setAdd]
      rcases Table.search_cases (bucketHaskey_iff · key)
          (fun j => (self.put j (some (bucketNew key)), (0 : Int))) (fun _ _ => (self, 0))
          (self, -1) with ⟨_, heq⟩ | ⟨j, hstop, hempty, heq⟩ | ⟨_, _, _, _, heq⟩
      · rwa [heq]
      · rw [heq]
        refine nonempty_put (Table.stop_lt hstop) hne fun bucket hbucket => ?_
        rw [← Option.some.inj hbucket, bytes_bucketNew]
        exact fun hkey => hop hkey j hstop hempty
      · rwa [heq]
  | remove key =>
      rw [step, setRemove]
      rcases Table.search_cases (bucketHaskey_iff · key) (fun _ => (self, (-1 : Int)))
          (fun j _ => (self.put j none, 0)) (self, -1)
        with ⟨_, heq⟩ | ⟨_, _, _, heq⟩ | ⟨j, _, hstop, _, heq⟩
      · rwa [heq]
      · rwa [heq]
      · rw [heq]
        refine nonempty_put (Table.stop_lt hstop) hne fun bucket hbucket => ?_
        exact absurd hbucket.symm (Option.some_ne_none bucket)

/-- One call keeps the set free of duplicates exactly if it hides no key. -/
theorem InsertOnly.step_iff (h : InsertOnly hash self) {op : Op} (hop : op.key ≠ []) :
    InsertOnly hash (Set.step hash self op) ↔ HidesNone hash self op := by
  cases op with
  | add key => exact iff_of_true (h.step hop).1 trivial
  | remove key =>
      rw [HidesNone, ← h.settled_setRemove_iff]
      constructor
      · exact fun hafter => hafter.settled
      · exact fun hafter => ⟨hafter, nonempty_step h.nonempty (fillsNonempty_of_key hop)⟩

variable (hash)

/-- In every state of a run of additions and removals of non-empty keys no key
is stored twice and every stored key is found and listed, if and only if no
removal of the run hides another key. -/
theorem no_duplicates_iff (size : UInt64) (ops : List Op) (hops : ∀ op ∈ ops, op.key ≠ []) :
    (∀ before after, ops = before ++ after →
        NoDuplicates hash (before.foldl (step hash) (setNew size))) ↔
      Along (step hash) (HidesNone hash) (setNew size) ops := by
  have hkeys : Along (step hash) (fun _ op => op.key ≠ []) (setNew size) ops :=
    along_of_forall hops
  have hkeep : ∀ set (op : Op), InsertOnly hash set → op.key ≠ [] → HidesNone hash set op →
      InsertOnly hash (step hash set op) := fun _ _ h hop => (h.step_iff hop).mpr
  have hbreak : ∀ set (op : Op), InsertOnly hash set → op.key ≠ [] →
      NoDuplicates hash (step hash set op) → HidesNone hash set op := by
    intro set op h hop hnext
    have hnonempty : KeysNonempty (step hash set op) :=
      nonempty_step h.nonempty (fillsNonempty_of_key hop)
    exact (h.step_iff hop).mp (hnext.insertOnly hnonempty)
  exact shows_iff_along (fun _ h => h.noDuplicates) hkeep hbreak (insertOnly_new size) hkeys

end Operations

theorem no_duplicates_iff_collision :
    (∀ before after, [Op.add [97], .add [98], .remove [98]] = before ++ after →
        NoDuplicates Internal.xxh3 (before.foldl (step Internal.xxh3) (setNew 2))) ↔
      Along (step Internal.xxh3) (HidesNone Internal.xxh3) (setNew 2)
        [.add [97], .add [98], .remove [98]] :=
  no_duplicates_iff Internal.xxh3 2 [.add [97], .add [98], .remove [98]] (by decide)

/-- Both keys start at bucket 1 of 2.  With `a` removed from there, the second
`add` of `b` stores it again. -/
theorem removal_duplicates_key :
    ¬∀ (size : UInt64) (ops : List Op), (∀ op ∈ ops, op.key ≠ []) →
      NoDuplicates Internal.xxh3 (ops.foldl (step Internal.xxh3) (setNew size)) := by
  intro h
  have hrun := h 2 [.add [97], .add [98], .remove [97], .add [98]] (by decide)
  have hkeys : ∀ j ∈ [0, 1], (([.add [97], .add [98], .remove [97], .add [98]] : List Op).foldl
      (step Internal.xxh3) (setNew 2)).keys Bucket.bytes j = some [98] := by
    decide +kernel
  have hsame := hrun.once 0 1 [98] (hkeys 0 (by decide)) (hkeys 1 (by decide))
  exact absurd hsame (by decide)

end Doctrina.Set
