import Doctrina.Fault
import Doctrina.Internal.Hash
import Doctrina.Internal.Table
/-!
# The hash map of map.c

The functions take the hash behind the macro `__hash__` as a parameter; the
build uses `Internal.xxh3`.  A key or a value is passed as the list of its
bytes, which stands for the pointer and the length of the C interface.  Memory
is taken to be available.
-/

namespace Doctrina.Map

open Doctrina.Internal

def SEED : UInt64 := 2

/-- `size` is the recorded length of the value, `data` its buffer. -/
structure Bucket where
  keylen : Nat
  size : Nat
  key : Option (List UInt8)
  data : Option (List UInt8)
  keylen_eq : keylen = (key.getD []).length
  deriving DecidableEq

abbrev MapT : Type := Table Bucket

def bucketNew (key data : List UInt8) : Bucket where
  keylen := key.length
  size := data.length
  key := duplicate key
  data := duplicate data
  keylen_eq := length_duplicate key

/-- The buffer after the `realloc` of `bucket_update`. -/
def bucketResize (self : Bucket) (size : Nat) : Except Fault (Option (List UInt8)) :=
  if size ≠ self.size then
    match realloc self.data size with
    | none => .error (.exit "bucket_update" "could not re- allocate bucket.data to the heap")
    | some bytes => .ok (some bytes)
  else .ok self.data

/-- The recorded size is not touched. -/
def bucketUpdate (self : Bucket) (data : List UInt8) : Except Fault Bucket := do
  let buffer ← bucketResize self data.length
  let buffer ← memcpyTo buffer data
  return { self with data := buffer }

def bucketData (self : Bucket) : Except Fault (List UInt8) :=
  if self.data = none then
    .error (.exit "bucket_data" "could not allocate buffer to the heap")
  else memcpyFrom self.data self.size

def bucketSize (self : Bucket) : Nat := self.size

def bucketHaskey (self : Bucket) (key : List UInt8) : Bool := haskey self.keylen self.key key

def mapNew (size : UInt64) : MapT := Table.new size

section Operations

variable (hash : List UInt8 → UInt64 → UInt64) (self : MapT) (key : List UInt8)

/-- `size` is the word behind the pointer of that name, `none` for NULL.
Returns the copied value and the word afterwards. -/
def mapGet (size : Option Nat) : Except Fault (Option (List UInt8) × Nat) :=
  match size with
  | none => .error .nullPointer
  | some _ =>
      self.search (bucketHaskey · key) (hash key SEED)
        (fun _ => .ok (none, 0))
        (fun _ bucket => (bucketData bucket).map fun data => (some data, bucketSize bucket))
        (.ok (none, 0))

def mapExists : Int :=
  self.search (bucketHaskey · key) (hash key SEED) (fun _ => 0) (fun _ _ => 1) 0

/-- Returns 0 when the pair was stored and -1 when no bucket was left. -/
def mapSet (data : List UInt8) : Except Fault (MapT × Int) :=
  self.search (bucketHaskey · key) (hash key SEED)
    (fun j => .ok (self.put j (some (bucketNew key data)), 0))
    (fun j bucket =>
      (bucketUpdate bucket data).map fun bucket => (self.put j (some bucket), 0))
    (.ok (self, -1))

/-- Returns 0 when an entry was removed and -1 when there was none. -/
def mapDel : MapT × Int :=
  self.search (bucketHaskey · key) (hash key SEED)
    (fun _ => (self, -1)) (fun j _ => (self.put j none, 0)) (self, -1)

end Operations

end Doctrina.Map
