import Doctrina.Map.Update
import Doctrina.Set.InsertOnly
/-!
# The set and the map are one table

set.c and map.c repeat the same loops over the same buckets.  Driven side by
side, with values of one length in the map, they return the same codes and
hold the same keys in the same buckets.
-/

namespace Doctrina.Set

open Doctrina.Internal Doctrina.Lib.Execution

/-- `add` is `set_add` of the key and `map_set` of the key and the value. -/
inductive Call
  | add (key value : List UInt8)
  | remove (key : List UInt8)
  | lookup (key : List UInt8)

/-- The value that goes into the map has `length` bytes. -/
def Call.HasLength (length : Nat) : Call → Prop
  | .add _ value => value.length = length
  | .remove _ => True
  | .lookup _ => True

instance (length : Nat) : DecidablePred (Call.HasLength length)
  | .add _ value => inferInstanceAs (Decidable (value.length = length))
  | .remove _ => inferInstanceAs (Decidable True)
  | .lookup _ => inferInstanceAs (Decidable True)

/-- A table and the codes that the calls on it have returned. -/
structure Traced (τ : Type) where
  table : τ
  codes : List Int

section Operations

variable (hash : List UInt8 → UInt64 → UInt64)

def setCall (self : SetT) : Call → SetT × Int
  | .add key _ => setAdd hash self key
  | .remove key => setRemove hash self key
  | .lookup key => (self, setExists hash self key)

def mapCall (self : Map.MapT) : Call → Except Fault (Map.MapT × Int)
  | .add key value => Map.mapSet hash self key value
  | .remove key => .ok (Map.mapDel hash self key)
  | .lookup key => .ok (self, Map.mapExists hash self key)

def setStep (run : Traced SetT) (call : Call) : Traced SetT :=
  let (table, code) := setCall hash run.table call
  ⟨table, run.codes ++ [code]⟩

def mapStep (run : Traced Map.MapT) (call : Call) : Except Fault (Traced Map.MapT) := do
  let (table, code) ← mapCall hash run.table call
  return ⟨table, run.codes ++ [code]⟩

/-- Bucket by bucket both are empty or hold the same key. -/
def SameBuckets (set : SetT) (map : Map.MapT) : Prop :=
  set.size = map.size ∧ ∀ j < set.size.toNat,
    (set.bucket j = none ∧ map.bucket j = none) ∨
      ∃ bucket bucket', set.bucket j = some bucket ∧ map.bucket j = some bucket' ∧
        bucket.bytes = bucket'.bytes

/-- What relates the two tables: the keys, and room in the map for another
value of the length. -/
structure SameTable (length : Nat) (set : SetT) (map : Map.MapT) : Prop where
  size_eq : set.size = map.size
  keys_eq : set.keys Bucket.bytes = map.keys Map.Bucket.bytes
  values : ∀ j bucket, map.bucket j = some bucket →
    bucket.size = length ∧ length ≤ (bucket.data.getD []).length

variable {hash} {length : Nat} {set : SetT} {map : Map.MapT} {key value : List UInt8} {j : Nat}

theorem sameTable_new (size : UInt64) (length : Nat) :
    SameTable length (setNew size) (Map.mapNew size) := by
  refine ⟨rfl, by simp [setNew, Map.mapNew], fun j bucket hbucket => ?_⟩
  rw [Map.mapNew, Table.bucket_new] at hbucket
  exact absurd hbucket.symm (Option.some_ne_none bucket)

namespace SameTable

theorem sameBuckets (h : SameTable length set map) : SameBuckets set map := by
  refine ⟨h.size_eq, fun j _ => ?_⟩
  have hkey := congrFun h.keys_eq j
  cases hset : set.bucket j with
  | none =>
      rw [Table.keys_eq_none_iff.mpr hset] at hkey
      exact .inl ⟨rfl, Table.keys_eq_none_iff.mp hkey.symm⟩
  | some bucket =>
      rw [Table.keys_eq_some_iff.mpr ⟨bucket, hset, rfl⟩] at hkey
      obtain ⟨bucket', hmap, hbytes⟩ := Table.keys_eq_some_iff.mp hkey.symm
      exact .inr ⟨bucket, bucket', rfl, hmap, hbytes.symm⟩

theorem bucket_eq_none_iff (h : SameTable length set map) (j : Nat) :
    set.bucket j = none ↔ map.bucket j = none := by
  have hset : set.keys Bucket.bytes j = none ↔ set.bucket j = none := Table.keys_eq_none_iff
  rw [← hset, h.keys_eq, Table.keys_eq_none_iff]

theorem search_cases (h : SameTable length set map) (key : List UInt8) {ρ ρ' : Type}
    (empty : Nat → ρ) (found : Nat → Bucket → ρ) (full : ρ) (empty' : Nat → ρ')
    (found' : Nat → Map.Bucket → ρ') (full' : ρ') :
    (set.search (bucketHaskey · key) (hash key SEED) empty found full = full ∧
      map.search (Map.bucketHaskey · key) (hash key SEED) empty' found' full' = full') ∨
    (∃ j, j < set.size.toNat ∧
      set.search (bucketHaskey · key) (hash key SEED) empty found full = empty j ∧
      map.search (Map.bucketHaskey · key) (hash key SEED) empty' found' full' = empty' j) ∨
    (∃ j bucket bucket', j < set.size.toNat ∧ map.bucket j = some bucket' ∧
      set.search (bucketHaskey · key) (hash key SEED) empty found full = found j bucket ∧
      map.search (Map.bucketHaskey · key) (hash key SEED) empty' found' full' =
        found' j bucket') := by
  have hstop : map.stop Map.Bucket.bytes key (hash key SEED) =
      set.stop Bucket.bytes key (hash key SEED) := by
    rw [Table.stop, Table.stop, h.size_eq, h.keys_eq]
  rw [Table.search_eq (bucketHaskey_iff · key), Table.search_eq (Map.bucketHaskey_iff · key),
    hstop]
  cases hj : set.stop Bucket.bytes key (hash key SEED) with
  | none => exact .inl ⟨rfl, rfl⟩
  | some j =>
      have hnone := h.bucket_eq_none_iff j
      have hlt := Table.stop_lt hj
      cases hset : set.bucket j with
      | none =>
          have hmap := hnone.mp hset
          refine .inr (.inl ⟨j, hlt, ?_, ?_⟩)
          · simp only [hset]
          · simp only [hmap]
      | some bucket =>
          cases hmap : map.bucket j with
          | none =>
              rw [hnone.mpr hmap] at hset
              exact absurd hset.symm (Option.some_ne_none bucket)
          | some bucket' =>
              refine .inr (.inr ⟨j, bucket, bucket', hlt, hmap, ?_, ?_⟩)
              · simp only [hset]
              · simp only [hmap]

theorem put (h : SameTable length set map) (hj : j < set.size.toNat) {entry : Option Bucket}
    {entry' : Option Map.Bucket} (hkey : entry.map Bucket.bytes = entry'.map Map.Bucket.bytes)
    (hvalue : ∀ bucket, entry' = some bucket →
      bucket.size = length ∧ length ≤ (bucket.data.getD []).length) :
    SameTable length (set.put j entry) (map.put j entry') := by
  have hj' : j < map.size.toNat := by rwa [← h.size_eq]
  refine ⟨h.size_eq, ?_, fun i bucket hbucket => ?_⟩
  · rw [Table.keys_put hj, Table.keys_put hj', h.keys_eq, hkey]
  · rw [Table.bucket_put map hj'] at hbucket
    split at hbucket
    · exact hvalue bucket hbucket
    · exact h.values i bucket hbucket

theorem put_right (h : SameTable length set map) (hj : j < set.size.toNat)
    {bucket bucket' : Map.Bucket} (hbucket : map.bucket j = some bucket)
    (hkey : bucket'.bytes = bucket.bytes)
    (hvalue : bucket'.size = length ∧ length ≤ (bucket'.data.getD []).length) :
    SameTable length set (map.put j (some bucket')) := by
  have hj' : j < map.size.toNat := by rwa [← h.size_eq]
  refine ⟨h.size_eq, ?_, fun i entry hentry => ?_⟩
  · rw [Table.keys_put_same hj' hbucket hkey, h.keys_eq]
  · rw [Table.bucket_put map hj'] at hentry
    split at hentry
    · rw [← Option.some.inj hentry]
      exact hvalue
    · exact h.values i entry hentry

theorem update (h : SameTable length set map) {bucket : Map.Bucket}
    (hbucket : map.bucket j = some bucket) (hlength : 0 < length)
    (hvalue : value.length = length) :
    ∃ bucket', Map.bucketUpdate bucket value = .ok bucket' ∧
      bucket'.bytes = bucket.bytes ∧ bucket'.size = length ∧
        length ≤ (bucket'.data.getD []).length := by
  obtain ⟨hsize, hroom⟩ := h.values j bucket hbucket
  have hne : value ≠ [] := List.length_pos_iff.mp (by omega)
  obtain ⟨bucket', hupdate, hread⟩ :=
    (Map.bucketUpdate_same hne (hsize.trans hvalue.symm)).mpr (by omega)
  obtain ⟨hbytes, hsize'⟩ := Map.bucketUpdate_ok hupdate
  refine ⟨bucket', hupdate, hbytes, hsize'.trans hsize, ?_⟩
  rw [Map.length_bucketUpdate hupdate (hsize.trans hvalue.symm)]
  exact hroom

theorem add (h : SameTable length set map) (hlength : 0 < length)
    (hvalue : value.length = length) :
    ∃ map', Map.mapSet hash map key value = .ok (map', (setAdd hash set key).2) ∧
      SameTable length (setAdd hash set key).1 map' := by
  unfold setAdd Map.mapSet
  rcases h.search_cases key (fun j => (set.put j (some (bucketNew key)), (0 : Int)))
      (fun _ _ => (set, 0)) (set, -1)
      (fun j => .ok (map.put j (some (Map.bucketNew key value)), (0 : Int)))
      (fun j bucket => (Map.bucketUpdate bucket value).map fun bucket =>
        (map.put j (some bucket), 0)) (.ok (map, -1))
    with ⟨hset, hmap⟩ | ⟨j, hj, hset, hmap⟩ | ⟨j, _, bucket, hj, hbucket, hset, hmap⟩
  · rw [hset]
    exact ⟨map, hmap, h⟩
  · rw [hset]
    refine ⟨_, hmap, h.put hj (by simp) fun bucket hbucket => ?_⟩
    rw [← Option.some.inj hbucket, Map.bucketNew, duplicate_getD]
    exact ⟨hvalue, hvalue.ge⟩
  · obtain ⟨bucket', hupdate, hbytes, hnew⟩ := h.update hbucket hlength hvalue
    rw [hupdate] at hmap
    rw [hset]
    exact ⟨_, hmap, h.put_right hj hbucket hbytes hnew⟩

theorem remove (h : SameTable length set map) :
    (Map.mapDel hash map key).2 = (setRemove hash set key).2 ∧
      SameTable length (setRemove hash set key).1 (Map.mapDel hash map key).1 := by
  unfold setRemove Map.mapDel
  rcases h.search_cases key (fun _ => (set, (-1 : Int))) (fun j _ => (set.put j none, 0))
      (set, -1) (fun _ => (map, (-1 : Int))) (fun j _ => (map.put j none, 0)) (map, -1)
    with ⟨hset, hmap⟩ | ⟨j, _, hset, hmap⟩ | ⟨j, _, _, hj, _, hset, hmap⟩
  · rw [hset, show Map.SEED = SEED from rfl, hmap]
    exact ⟨rfl, h⟩
  · rw [hset, show Map.SEED = SEED from rfl, hmap]
    exact ⟨rfl, h⟩
  · rw [hset, show Map.SEED = SEED from rfl, hmap]
    refine ⟨rfl, h.put hj rfl fun bucket hbucket => ?_⟩
    exact absurd hbucket.symm (Option.some_ne_none bucket)

theorem lookup (h : SameTable length set map) :
    Map.mapExists hash map key = setExists hash set key := by
  unfold setExists Map.mapExists
  rcases h.search_cases key (fun _ => (0 : Int)) (fun _ _ => 1) 0 (fun _ => (0 : Int))
      (fun _ _ => 1) 0
    with ⟨hset, hmap⟩ | ⟨_, _, hset, hmap⟩ | ⟨_, _, _, _, _, hset, hmap⟩
  · rw [hset]
    exact hmap
  · rw [hset]
    exact hmap
  · rw [hset]
    exact hmap

theorem call (h : SameTable length set map) (hlength : 0 < length) {call : Call}
    (hcall : call.HasLength length) :
    ∃ map', mapCall hash map call = .ok (map', (setCall hash set call).2) ∧
      SameTable length (setCall hash set call).1 map' := by
  cases call with
  | add key value => exact h.add hlength hcall
  | remove key =>
      have hcode : (Map.mapDel hash map key).2 = (setRemove hash set key).2 := h.remove.1
      refine ⟨_, ?_, h.remove.2⟩
      rw [mapCall, setCall, ← hcode]
  | lookup key =>
      refine ⟨map, ?_, h⟩
      rw [mapCall, setCall, h.lookup]

end SameTable

/-- Two runs have come to the same table with the same codes. -/
def Alike (length : Nat) (run : Traced SetT) (run' : Traced Map.MapT) : Prop :=
  SameTable length run.table run'.table ∧ run'.codes = run.codes

theorem Alike.step {run : Traced SetT} {run' : Traced Map.MapT} (h : Alike length run run')
    (hlength : 0 < length) {call : Call} (hcall : call.HasLength length) :
    ∃ next, mapStep hash run' call = .ok next ∧ Alike length (setStep hash run call) next := by
  have hmap : ∃ map', mapCall hash run'.table call =
      .ok (map', (setCall hash run.table call).2) ∧
      SameTable length (setCall hash run.table call).1 map' := h.1.call hlength hcall
  obtain ⟨table, heq, hnext⟩ := hmap
  refine ⟨⟨table, run'.codes ++ [(setCall hash run.table call).2]⟩, ?_, hnext, ?_⟩
  · rw [mapStep, heq]
    rfl
  · rw [h.2]
    rfl

variable (hash)

/-- From empty tables of one size, and through any calls with values of one
length, the map does not fail, returns at every call the code that the set
returns, and has the same keys in the same buckets. -/
theorem set_and_map_run_alike (size : UInt64) {length : Nat} (hlength : 0 < length)
    (calls : List Call) (hcalls : ∀ call ∈ calls, call.HasLength length) :
    ∃ run, calls.foldlM (mapStep hash) ⟨Map.mapNew size, []⟩ = .ok run ∧
      run.codes = (calls.foldl (setStep hash) ⟨setNew size, []⟩).codes ∧
      SameBuckets (calls.foldl (setStep hash) ⟨setNew size, []⟩).table run.table := by
  have hinit : Alike length ⟨setNew size, []⟩ ⟨Map.mapNew size, []⟩ :=
    ⟨sameTable_new size length, rfl⟩
  have hstep : ∀ run run' (call : Call), Alike length run run' → call.HasLength length →
      ∃ next, mapStep hash run' call = .ok next ∧
        Alike length (setStep hash run call) next := fun _ _ _ h hcall =>
    h.step hlength hcall
  obtain ⟨run, hrun, htables, hcodes⟩ :=
    simulation_foldlM hstep hinit (alongM_of_forall hcalls)
  exact ⟨run, hrun, hcodes, htables.sameBuckets⟩

end Operations

/-- Three keys of one hash around a removal, in tables of two buckets. -/
theorem set_and_map_run_alike_collisions :
    ∃ run, [Call.add [97] [1], .add [98] [2], .remove [97], .lookup [98], .add [98] [3],
        .add [99] [4]].foldlM (mapStep fun _ _ => 0) ⟨Map.mapNew 2, []⟩ = .ok run ∧
      run.codes = ([Call.add [97] [1], .add [98] [2], .remove [97], .lookup [98],
        .add [98] [3], .add [99] [4]].foldl (setStep fun _ _ => 0) ⟨setNew 2, []⟩).codes ∧
      SameBuckets ([Call.add [97] [1], .add [98] [2], .remove [97], .lookup [98],
        .add [98] [3], .add [99] [4]].foldl (setStep fun _ _ => 0) ⟨setNew 2, []⟩).table
        run.table :=
  @set_and_map_run_alike (fun _ _ => 0) 2 1 (by decide) _ (by decide)

end Doctrina.Set
