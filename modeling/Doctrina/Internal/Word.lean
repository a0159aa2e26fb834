import Mathlib.Data.Nat.Bitwise
/-!
# Words in memory

A 64-bit word is stored as its eight bytes, the lowest first.
-/

namespace Doctrina.Internal

def readLE : List UInt8 → UInt64
  | [] => 0
  | b :: bs => b.toUInt64 ||| (readLE bs <<< 8)

def lowBytes : Nat → Nat → List UInt8
  | 0, _ => []
  | n + 1, value => UInt8.ofNat (value % 256) :: lowBytes n (value / 256)

/-- The bytes of the word that `&word` points to. -/
def wordBytes (word : UInt64) : List UInt8 := lowBytes 8 word.toNat

@[simp] theorem length_lowBytes (n value : Nat) : (lowBytes n value).length = n := by
  induction n generalizing value with
  | zero => rfl
  | succ n ih => rw [lowBytes, List.length_cons, ih]

@[simp] theorem length_wordBytes (word : UInt64) : (wordBytes word).length = 8 :=
  length_lowBytes 8 word.toNat

theorem wordBytes_ne_nil (word : UInt64) : wordBytes word ≠ [] := by
  intro h
  have hlen := length_wordBytes word
  rw [h] at hlen
  cases hlen

theorem toNat_readLE_cons (b : UInt8) (bs : List UInt8)
    (hfits : (readLE bs).toNat * 256 < 2 ^ 64) :
    (readLE (b :: bs)).toNat = b.toNat + (readLE bs).toNat * 256 := by
  have hshift : (readLE bs <<< 8).toNat = (readLE bs).toNat <<< 8 := by
    rw [UInt64.toNat_shiftLeft, Nat.shiftLeft_eq, Nat.shiftLeft_eq]
    exact Nat.mod_eq_of_lt hfits
  rw [readLE, UInt64.toNat_or, hshift, UInt8.toNat_toUInt64, Nat.or_comm,
    ← Nat.shiftLeft_add_eq_or_of_lt b.toNat_lt, Nat.shiftLeft_eq, Nat.add_comm]

theorem toNat_readLE_lowBytes (n value : Nat) (hn : n ≤ 8) :
    (readLE (lowBytes n value)).toNat = value % 256 ^ n := by
  induction n generalizing value with
  | zero => simp [lowBytes, readLE, Nat.mod_one]
  | succ n ih =>
      have hrest := ih (value / 256) (by omega)
      have hlt : value / 256 % 256 ^ n < 256 ^ n := Nat.mod_lt _ (Nat.pow_pos (by decide))
      have hpow : 256 ^ n * 256 ≤ 2 ^ 64 := by
        calc 256 ^ n * 256 = 256 ^ (n + 1) := (Nat.pow_succ ..).symm
          _ ≤ 256 ^ 8 := Nat.pow_le_pow_right (by decide) hn
          _ = 2 ^ 64 := by decide
      have hbyte : (UInt8.ofNat (value % 256)).toNat = value % 256 :=
        UInt8.toNat_ofNat_of_lt' (Nat.mod_lt _ (by decide))
      rw [lowBytes, toNat_readLE_cons _ _ (by rw [hrest]; omega), hrest, hbyte,
        Nat.pow_succ', Nat.mod_mul, Nat.mul_comm]

@[simp] theorem readLE_wordBytes (word : UInt64) : readLE (wordBytes word) = word := by
  apply UInt64.toNat_inj.mp
  rw [wordBytes, toNat_readLE_lowBytes 8 _ (Nat.le_refl 8)]
  exact Nat.mod_eq_of_lt word.toNat_lt

theorem wordBytes_inj {word word' : UInt64} (h : wordBytes word = wordBytes word') :
    word = word' := by
  rw [← readLE_wordBytes word, h, readLE_wordBytes]

end Doctrina.Internal
