import Doctrina.Fault
import Doctrina.Internal.Table
/-!
# The hash set of set.c

As in the map, the hash is a parameter, a key is the list of its bytes, and
memory is taken to be available.
-/

namespace Doctrina.Set

open Doctrina.Internal

def SEED : UInt64 := 2

structure Bucket where
  keylen : Nat
  key : Option (List UInt8)
  keylen_eq : keylen = (key.getD []).length

abbrev SetT : Type := Table Bucket

def bucketNew (key : List UInt8) : Bucket where
  keylen := key.length
  key := duplicate key
  keylen_eq := length_duplicate key

/-- `size` is the word behind the pointer of that name, `none` for NULL.
Returns the copied key and the word afterwards. -/
def bucketKey (self : Bucket) (size : Option Nat) : Except Fault (List UInt8 × Nat) :=
  if self.key = none then
    .error (.exit "bucket_key" "could not allocate buffer to the heap")
  else do
    let key ← memcpyFrom self.key self.keylen
    match size with
    | none => .error .nullPointer
    | some _ => .ok (key, self.keylen)

def bucketHaskey (self : Bucket) (key : List UInt8) : Bool := haskey self.keylen self.key key

def setNew (size : UInt64) : SetT := Table.new size

/-- The buffer into which `set_getall` copies a key of `size` bytes, after
`overall` was raised to count it. -/
def getallBuffer (data : Option (List UInt8)) (size overall : Nat) :
    Except Fault (List UInt8) :=
  match data with
  | none => .ok (List.replicate size 0)
  | some old =>
      match realloc (some old) overall with
      | none => .error (.exit "set_getall" "could not reallocate buffer to the heap")
      | some block => .ok block

/-- The loop body of `set_getall`, on `data` and `*overall_size`. -/
def getallStep (state : Option (List UInt8) × Nat) (bucket : Option Bucket) :
    Except Fault (Option (List UInt8) × Nat) :=
  match bucket with
  | none => .ok state
  | some bucket => do
      let (key, size) ← bucketKey bucket (some 0)
      let overall := state.2 + size
      let block ← getallBuffer state.1 size overall
      let block ← memcpyAt block (overall - size) key
      return (some block, overall)

section Operations

variable (hash : List UInt8 → UInt64 → UInt64) (self : SetT) (key : List UInt8)

/-- The word behind `size` is written only when a key is returned. -/
def setGet (size : Option Nat) : Except Fault (Option (List UInt8) × Option Nat) :=
  self.search (bucketHaskey · key) (hash key SEED)
    (fun _ => .ok (none, size))
    (fun _ bucket => (bucketKey bucket size).map fun read => (some read.1, some read.2))
    (.ok (none, size))

/-- Returns the buffer, `none` when no key was copied, and `*overall_size`. -/
def setGetall (overallSize : Option Nat) : Except Fault (Option (List UInt8) × Nat) :=
  match overallSize with
  | none => .error .nullPointer
  | some _ => self.buckets.foldlM getallStep (none, 0)

def setExists : Int :=
  self.search (bucketHaskey · key) (hash key SEED) (fun _ => 0) (fun _ _ => 1) 0

/-- Returns 0 when the key is in the set afterwards and -1 when no bucket was
left. -/
def setAdd : SetT × Int :=
  self.search (bucketHaskey · key) (hash key SEED)
    (fun j => (self.put j (some (bucketNew key)), 0)) (fun _ _ => (self, 0)) (self, -1)

/-- Returns 0 when the key was removed and -1 when there was none. -/
def setRemove : SetT × Int :=
  self.search (bucketHaskey · key) (hash key SEED)
    (fun _ => (self, -1)) (fun j _ => (self.put j none, 0)) (self, -1)

end Operations

end Doctrina.Set
