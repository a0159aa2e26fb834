import Doctrina.Internal.Objects
import Doctrina.Map.Lookup
/-!
# map.c on its objects

The functions of map.c with the header, the bucket array, the buckets and the
blocks of bytes behind pointers.  What the allocation functions return is an
argument of a call.  Each function acts on the objects of one map as its
namesake of `Map.Basic` acts on the map, faults where that one does, and
touches no other object.
-/

namespace Doctrina.Map

open Doctrina.Internal Doctrina.Lib.Cells

structure Fields where
  keylen : Nat
  size : Nat
  key : Option Addr
  data : Option Addr

abbrev Memory : Type := Objects Fields

/-- What `calloc` returns for a bucket, its key and its value, and what
`realloc` returns for a value. -/
structure Answers where
  bucket : Option Addr
  key : Option Addr
  data : Option Addr
  resized : Option Addr

namespace Memory

def bucketNew (memory : Memory) (key data : List UInt8) (answers : Answers) :
    Except Fault (Memory × Addr) :=
  match answers.bucket with
  | none => .error (.exit "bucket_new" "could not allocate bucket to the heap")
  | some a => do
      let memory : Memory := memory.insert a (.bucket ⟨0, 0, none, none⟩)
      let memory ← memory.attach a key answers.key
        (.exit "bucket_new" "could not allocate bucket.key to the heap")
        fun block fields => { fields with key := some block, keylen := key.length }
      let memory ← Objects.attach memory a data answers.data
        (.exit "bucket_new" "could not allocate bucket.data to the heap")
        fun block fields => { fields with data := some block, size := data.length }
      return (memory, a)

/-- `bucket_destroy(&buckets[j])`. -/
def bucketDestroy (memory : Memory) (buckets : Option Addr) (j : Nat) :
    Except Fault Memory := do
  match ← memory.entry buckets j with
  | none => return memory
  | some a =>
      let fields ← memory.fields (some a)
      let memory ← memory.freeBlock fields.key
      let memory ← memory.setFields (some a) fun fields => { fields with key := none }
      let fields ← memory.fields (some a)
      let memory ← memory.freeBlock fields.data
      let memory ← memory.setFields (some a) fun fields => { fields with data := none }
      let memory ← Store.free memory a
      Objects.setEntry memory buckets j none

/-- The `realloc` of `bucket_update`. -/
def bucketResize (memory : Memory) (bucket : Addr) (size : Nat) (answer : Option Addr) :
    Except Fault Memory := do
  let fields ← memory.fields (some bucket)
  if size ≠ fields.size then
    let memory ← memory.setFields (some bucket) fun fields => { fields with data := none }
    match ← memory.reallocate fields.data size answer with
    | (_, none) =>
        .error (.exit "bucket_update" "could not re- allocate bucket.data to the heap")
    | (memory, some block) =>
        Objects.setFields memory (some bucket) fun fields => { fields with data := some block }
  else return memory

def bucketUpdate (memory : Memory) (bucket : Addr) (data : List UInt8)
    (answer : Option Addr) : Except Fault Memory := do
  let memory ← bucketResize memory bucket data.length answer
  let fields ← memory.fields (some bucket)
  Objects.copyTo memory fields.data 0 data

/-- What is checked is the pointer in the bucket. -/
def bucketData (memory : Memory) (bucket : Addr) (answer : Option Addr) :
    Except Fault (Memory × Option Addr) := do
  let fields ← memory.fields (some bucket)
  if fields.data = none then
    .error (.exit "bucket_data" "could not allocate buffer to the heap")
  else
    let block ← memory.block fields.data
    let bytes ← memcpyFrom block fields.size
    memory.copyOut bytes answer

def bucketSize (memory : Memory) (bucket : Addr) : Except Fault Nat := do
  let fields ← memory.fields (some bucket)
  return fields.size

def bucketHaskey (memory : Memory) (key : List UInt8) (bucket : Addr) : Except Fault Bool := do
  let fields ← memory.fields (some bucket)
  memory.hasKey fields.keylen fields.key key

def mapNew (memory : Memory) (size : UInt64) (map buckets : Option Addr) :
    Except Fault (Memory × Addr) :=
  tableNew (.exit "map_new" "could not allocate map to the heap")
    (.exit "map_new" "could not allocate map.buckets to the heap") memory size map buckets

def mapDestroy (memory : Memory) (map : Option Addr) : Except Fault Memory :=
  tableDestroy bucketDestroy memory map

section Operations

variable (hash : List UInt8 → UInt64 → UInt64) (memory : Memory) (map : Option Addr)
  (key : List UInt8)

/-- Where the loop that `map_get`, `map_exists`, `map_set` and `map_del` begin
with ends. -/
def search : Except Fault Place :=
  searchObjects (bucketHaskey memory key) memory map (hash key SEED)

/-- Returns the buffer and the word behind `size`. -/
def mapGet (size : Option Nat) (answer : Option Addr) :
    Except Fault (Memory × Option Addr × Nat) :=
  match size with
  | none => .error .nullPointer
  | some _ => do
      match ← search hash memory map key with
      | .empty _ | .full => return (memory, none, 0)
      | .found _ bucket =>
          let size ← bucketSize memory bucket
          let (memory, buffer) ← bucketData memory bucket answer
          return (memory, buffer, size)

/-- The block of the value of a key that is found. -/
def valueOf : Option Addr :=
  match search hash memory map key with
  | .ok (.found _ bucket) =>
      match memory.fields (some bucket) with
      | .ok fields => fields.data
      | .error _ => none
  | _ => none

def mapExists : Except Fault Int := do
  match ← search hash memory map key with
  | .empty _ | .full => return 0
  | .found _ _ => return 1

def mapSet (data : List UInt8) (answers : Answers) : Except Fault (Memory × Int) := do
  let (buckets, _) ← memory.header map
  match ← search hash memory map key with
  | .full => return (memory, -1)
  | .found _ bucket =>
      let memory ← bucketUpdate memory bucket data answers.resized
      return (memory, 0)
  | .empty j =>
      let (memory, bucket) ← bucketNew memory key data answers
      let memory ← Objects.setEntry memory buckets j (some bucket)
      return (memory, 0)

def mapDel : Except Fault (Memory × Int) := do
  let (buckets, _) ← memory.header map
  match ← search hash memory map key with
  | .empty _ | .full => return (memory, -1)
  | .found j _ =>
      let memory ← bucketDestroy memory buckets j
      return (memory, 0)

end Operations

end Memory

end Doctrina.Map
