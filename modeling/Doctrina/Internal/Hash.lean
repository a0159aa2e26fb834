import Doctrina.Internal.Word
/-!
# The hash of internal/hash.c

`xxh3` over the bytes of a key, on a little-endian host.  The pointer `p` of
the source is the list of the bytes from `p` to `end`.
-/

namespace Doctrina.Internal

def XXH_PRIME_1 : UInt64 := 11400714785074694791
def XXH_PRIME_2 : UInt64 := 14029467366897019727
def XXH_PRIME_3 : UInt64 := 1609587929392839161
def XXH_PRIME_4 : UInt64 := 9650029242287828579
def XXH_PRIME_5 : UInt64 := 2870177450012600261

def xxhRead64 (p : List UInt8) : UInt64 := readLE (p.take 8)

def xxhRead32 (p : List UInt8) : UInt64 := readLE (p.take 4)

def xxhRotl64 (x r : UInt64) : UInt64 := (x <<< r) ||| (x >>> (64 - r))

/-- One lane of the 32-byte loop: `v += read * P2; v = rotl(v, 31); v *= P1`. -/
def xxhLane (v k : UInt64) : UInt64 :=
  xxhRotl64 (v + k * XXH_PRIME_2) 31 * XXH_PRIME_1

structure XxhLanes where
  v1 : UInt64
  v2 : UInt64
  v3 : UInt64
  v4 : UInt64

/-- `n` rounds of the 32-byte loop. -/
def xxhStripes : Nat → XxhLanes → List UInt8 → XxhLanes × List UInt8
  | 0, v, p => (v, p)
  | n + 1, v, p =>
      xxhStripes n
        ⟨xxhLane v.v1 (xxhRead64 p), xxhLane v.v2 (xxhRead64 (p.drop 8)),
          xxhLane v.v3 (xxhRead64 (p.drop 16)), xxhLane v.v4 (xxhRead64 (p.drop 24))⟩
        (p.drop 32)

/-- A lane folded into the hash behind the 32-byte loop. -/
def xxhMergeLane (h64 v : UInt64) : UInt64 :=
  (h64 ^^^ (xxhRotl64 (v * XXH_PRIME_2) 31 * XXH_PRIME_1)) * XXH_PRIME_1 + XXH_PRIME_4

def xxhMergeLanes (v : XxhLanes) : UInt64 :=
  let h64 := xxhRotl64 v.v1 1 + xxhRotl64 v.v2 7 + xxhRotl64 v.v3 12 + xxhRotl64 v.v4 18
  xxhMergeLane (xxhMergeLane (xxhMergeLane (xxhMergeLane h64 v.v1) v.v2) v.v3) v.v4

/-- `n` rounds of the 8-byte loop. -/
def xxhWords : Nat → UInt64 → List UInt8 → UInt64 × List UInt8
  | 0, h64, p => (h64, p)
  | n + 1, h64, p =>
      let k1 := xxhRotl64 (xxhRead64 p * XXH_PRIME_2) 31 * XXH_PRIME_1
      xxhWords n (xxhRotl64 (h64 ^^^ k1) 27 * XXH_PRIME_1 + XXH_PRIME_4) (p.drop 8)

def xxhHalfWord (h64 : UInt64) (p : List UInt8) : UInt64 × List UInt8 :=
  if 4 ≤ p.length then
    (xxhRotl64 (h64 ^^^ (xxhRead32 p * XXH_PRIME_1)) 23 * XXH_PRIME_2 + XXH_PRIME_3,
      p.drop 4)
  else (h64, p)

/-- One step of the loop over the last bytes. -/
def xxhByte (h64 : UInt64) (b : UInt8) : UInt64 :=
  xxhRotl64 (h64 ^^^ (b.toUInt64 * XXH_PRIME_5)) 11 * XXH_PRIME_1

def xxhAvalanche (h64 : UInt64) : UInt64 :=
  let h64 := h64 ^^^ (h64 >>> 33)
  let h64 := h64 * XXH_PRIME_2
  let h64 := h64 ^^^ (h64 >>> 29)
  let h64 := h64 * XXH_PRIME_3
  h64 ^^^ (h64 >>> 32)

def xxh3 (data : List UInt8) (seed : UInt64) : UInt64 :=
  let len := data.length
  let (h64, p) :=
    if 32 ≤ len then
      let v : XxhLanes :=
        ⟨seed + XXH_PRIME_1 + XXH_PRIME_2, seed + XXH_PRIME_2, seed + 0,
          seed - XXH_PRIME_1⟩
      let (v, p) := xxhStripes (len / 32) v data
      (xxhMergeLanes v, p)
    else (seed + XXH_PRIME_5, data)
  let h64 := h64 + UInt64.ofNat len
  let (h64, p) := xxhWords (p.length / 8) h64 p
  let (h64, p) := xxhHalfWord h64 p
  xxhAvalanche (p.foldl xxhByte h64)

example : xxh3 [97] 2 = 0xb507c7a858d4c7b := by decide

end Doctrina.Internal
