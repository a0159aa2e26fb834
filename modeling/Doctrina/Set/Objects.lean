import Doctrina.Internal.Objects
import Doctrina.Set.Basic
/-!
# set.c on its objects

As in `Map.Objects`, the functions of set.c with everything behind pointers and
the answers of the allocation functions as arguments.  `set_getall` allocates
and frees in every round of its loop; its answers are a function of the round.
-/

namespace Doctrina.Set

open Doctrina.Internal Doctrina.Lib.Cells

structure Fields where
  keylen : Nat
  key : Option Addr

abbrev Memory : Type := Objects Fields

/-- What `calloc` returns for a bucket and its key. -/
structure Answers where
  bucket : Option Addr
  key : Option Addr

/-- What the allocation functions return in a round of `set_getall`: for the
copy of a key, and for the buffer. -/
structure Round where
  key : Option Addr
  data : Option Addr

namespace Memory

def bucketNew (memory : Memory) (key : List UInt8) (answers : Answers) :
    Except Fault (Memory × Addr) :=
  match answers.bucket with
  | none => .error (.exit "bucket_new" "could not allocate bucket to the heap")
  | some a => do
      let memory : Memory := memory.insert a (.bucket ⟨0, none⟩)
      let memory ← memory.attach a key answers.key
        (.exit "bucket_new" "could not allocate bucket.key to the heap")
        fun block _ => ⟨key.length, some block⟩
      return (memory, a)

/-- `bucket_destroy(&buckets[j])`. -/
def bucketDestroy (memory : Memory) (buckets : Option Addr) (j : Nat) :
    Except Fault Memory := do
  match ← memory.entry buckets j with
  | none => return memory
  | some a =>
      let fields ← memory.fields (some a)
      let memory ← memory.freeBlock fields.key
      let memory ← memory.setFields (some a) fun fields => { fields with key := none }
      let memory ← Store.free memory a
      Objects.setEntry memory buckets j none

/-- What is checked is the pointer in the bucket. -/
def bucketKey (memory : Memory) (bucket : Addr) (size : Option Nat) (answer : Option Addr) :
    Except Fault (Memory × Option Addr × Nat) := do
  let fields ← memory.fields (some bucket)
  if fields.key = none then
    .error (.exit "bucket_key" "could not allocate buffer to the heap")
  else
    let block ← memory.block fields.key
    let bytes ← memcpyFrom block fields.keylen
    let (memory, pointer) ← memory.copyOut bytes answer
    match size with
    | none => .error .nullPointer
    | some _ => return (memory, pointer, fields.keylen)

def bucketHaskey (memory : Memory) (key : List UInt8) (bucket : Addr) : Except Fault Bool := do
  let fields ← memory.fields (some bucket)
  memory.hasKey fields.keylen fields.key key

def setNew (memory : Memory) (size : UInt64) (set buckets : Option Addr) :
    Except Fault (Memory × Addr) :=
  tableNew (.exit "set_new" "could not allocate set to the heap")
    (.exit "set_new" "could not allocate set.buckets to the heap") memory size set buckets

def setDestroy (memory : Memory) (set : Option Addr) : Except Fault Memory :=
  tableDestroy bucketDestroy memory set

/-- The locals of `set_getall`, and the memory. -/
structure Getall where
  memory : Memory
  data : Option Addr
  overall : Nat

/-- The buffer gets room for a key of `size` bytes, which `*overall_size`
counts by now. -/
def getallBuffer (memory : Memory) (data : Option Addr) (size overall : Nat)
    (answer : Option Addr) : Except Fault (Memory × Addr) :=
  match data with
  | none =>
      match answer with
      | none => .error (.exit "set_getall" "could not allocate buffer to the heap")
      | some a => .ok (memory.insert a (.block (List.replicate size 0)), a)
  | some old => do
      match ← memory.reallocate (some old) overall answer with
      | (_, none) => .error (.exit "set_getall" "could not reallocate buffer to the heap")
      | (memory, some a) => return (memory, a)

/-- The copy of a key goes to the end of the buffer, and is freed. -/
def getallCopy (memory : Memory) (buffer : Addr) (offset : Nat) (key : Option Addr)
    (size : Nat) : Except Fault Memory := do
  let block ← memory.block key
  let bytes ← memcpyFrom block size
  let memory ← memory.copyTo (some buffer) offset bytes
  Objects.freeBlock memory key

/-- The loop body of `set_getall`. -/
def getallStep (buckets : Option Addr) (rounds : Nat → Round) (state : Getall) (i : Nat) :
    Except Fault Getall := do
  match ← state.memory.entry buckets i with
  | none => return state
  | some bucket =>
      let (memory, key, size) ← bucketKey state.memory bucket (some 0) (rounds i).key
      let overall := state.overall + size
      let (memory, buffer) ← getallBuffer memory state.data size overall (rounds i).data
      let memory ← getallCopy memory buffer (overall - size) key size
      return ⟨memory, some buffer, overall⟩

section Operations

variable (hash : List UInt8 → UInt64 → UInt64) (memory : Memory) (set : Option Addr)
  (key : List UInt8)

/-- Where the loop that `set_get`, `set_exists`, `set_add` and `set_remove`
begin with ends. -/
def search : Except Fault Place :=
  searchObjects (bucketHaskey memory key) memory set (hash key SEED)

/-- Returns the buffer and the word behind `size`. -/
def setGet (size : Option Nat) (answer : Option Addr) :
    Except Fault (Memory × Option Addr × Option Nat) := do
  match ← search hash memory set key with
  | .empty _ | .full => return (memory, none, size)
  | .found _ bucket =>
      let (memory, buffer, size) ← bucketKey memory bucket size answer
      return (memory, buffer, some size)

/-- Returns the buffer and `*overall_size`. -/
def setGetall (overallSize : Option Nat) (rounds : Nat → Round) :
    Except Fault (Memory × Option Addr × Nat) :=
  match overallSize with
  | none => .error .nullPointer
  | some _ => do
      let (buckets, size) ← memory.header set
      let state ← (List.range size.toNat).foldlM (getallStep buckets rounds) ⟨memory, none, 0⟩
      return (state.memory, state.data, state.overall)

def setExists : Except Fault Int := do
  match ← search hash memory set key with
  | .empty _ | .full => return 0
  | .found _ _ => return 1

def setAdd (answers : Answers) : Except Fault (Memory × Int) := do
  let (buckets, _) ← memory.header set
  match ← search hash memory set key with
  | .full => return (memory, -1)
  | .found _ _ => return (memory, 0)
  | .empty j =>
      let (memory, bucket) ← bucketNew memory key answers
      let memory ← Objects.setEntry memory buckets j (some bucket)
      return (memory, 0)

def setRemove : Except Fault (Memory × Int) := do
  let (buckets, _) ← memory.header set
  match ← search hash memory set key with
  | .empty _ | .full => return (memory, -1)
  | .found j _ =>
      let memory ← bucketDestroy memory buckets j
      return (memory, 0)

end Operations

end Memory

end Doctrina.Set
