import Mathlib.Data.Nat.Bitwise
import Mathlib.Data.UInt
/-!
# The steps of hash functions lose nothing

A hash of a word is put together from rotations, multiplications by odd
constants, additions, and exclusive ors of a word with a constant or with its
own upper bits.  Each of these steps takes every value.
-/

namespace Doctrina.Lib.Mixing

open Function

theorem mul_surjective (c inverse : UInt64) (h : inverse * c = 1) :
    Surjective fun x : UInt64 => x * c := by
  intro y
  refine ⟨y * inverse, ?_⟩
  change y * inverse * c = y
  rw [UInt64.mul_assoc, h, UInt64.mul_one]

theorem add_surjective (c : UInt64) : Surjective fun x : UInt64 => x + c := by
  intro y
  exact ⟨y - c, UInt64.sub_add_cancel y c⟩

theorem xor_surjective (c : UInt64) : Surjective fun x : UInt64 => c ^^^ x := by
  intro y
  refine ⟨c ^^^ y, ?_⟩
  change c ^^^ (c ^^^ y) = y
  rw [← UInt64.xor_assoc, UInt64.xor_self, UInt64.zero_xor]

theorem toNat_rotate (x : UInt64) {r : UInt64} (hpos : 0 < r.toNat) (hlt : r.toNat < 64) :
    ((x <<< r) ||| (x >>> (64 - r))).toNat =
      x.toNat % 2 ^ (64 - r.toNat) * 2 ^ r.toNat + x.toNat / 2 ^ (64 - r.toNat) := by
  have hsub : (64 - r).toNat = 64 - r.toNat := by
    rw [UInt64.toNat_sub_of_le]
    · rfl
    · exact UInt64.le_iff_toNat_le.mpr (by simpa using hlt.le)
  have hpow : 2 ^ (64 - r.toNat) * 2 ^ r.toNat = 2 ^ 64 := by
    rw [← Nat.pow_add]
    congr 1
    omega
  have hup : (x <<< r).toNat = (x.toNat % 2 ^ (64 - r.toNat)) <<< r.toNat := by
    rw [UInt64.toNat_shiftLeft, Nat.mod_eq_of_lt hlt, Nat.shiftLeft_eq, Nat.shiftLeft_eq, ← hpow,
      Nat.mul_mod_mul_right]
  have hdown : (x >>> (64 - r)).toNat = x.toNat / 2 ^ (64 - r.toNat) := by
    rw [UInt64.toNat_shiftRight, hsub, Nat.mod_eq_of_lt (by omega), Nat.shiftRight_eq_div_pow]
  have hsmall : x.toNat / 2 ^ (64 - r.toNat) < 2 ^ r.toNat := by
    apply Nat.div_lt_of_lt_mul
    rw [hpow]
    exact x.toNat_lt
  rw [UInt64.toNat_or, hup, hdown, ← Nat.shiftLeft_add_eq_or_of_lt hsmall, Nat.shiftLeft_eq]

theorem rotate_surjective {r : UInt64} (hpos : 0 < r.toNat) (hlt : r.toNat < 64) :
    Surjective fun x : UInt64 => (x <<< r) ||| (x >>> (64 - r)) := by
  intro y
  have hsub : (64 - r).toNat = 64 - r.toNat := by
    rw [UInt64.toNat_sub_of_le]
    · rfl
    · exact UInt64.le_iff_toNat_le.mpr (by simpa using hlt.le)
  refine ⟨(y <<< (64 - r)) ||| (y >>> (64 - (64 - r))), UInt64.toNat_inj.mp ?_⟩
  have hback : 64 - (64 - r.toNat) = r.toNat := by omega
  have hlow : y.toNat / 2 ^ r.toNat < 2 ^ (64 - r.toNat) := by
    apply Nat.div_lt_of_lt_mul
    rw [← Nat.pow_add, Nat.add_sub_of_le hlt.le]
    exact y.toNat_lt
  have hrest : ((y <<< (64 - r)) ||| (y >>> (64 - (64 - r)))).toNat =
      2 ^ (64 - r.toNat) * (y.toNat % 2 ^ r.toNat) + y.toNat / 2 ^ r.toNat := by
    rw [toNat_rotate y (by omega) (by omega), hsub, hback, Nat.mul_comm]
  rw [toNat_rotate _ hpos hlt, hrest, Nat.mul_add_mod, Nat.mod_eq_of_lt hlow,
    Nat.mul_add_div (Nat.two_pow_pos _), Nat.div_eq_of_lt hlow, Nat.add_zero]
  exact Nat.div_add_mod' _ _

theorem shiftRight_xor (x y s : UInt64) : (x ^^^ y) >>> s = (x >>> s) ^^^ (y >>> s) := by
  apply UInt64.toNat_inj.mp
  rw [UInt64.toNat_shiftRight, UInt64.toNat_xor, UInt64.toNat_xor, UInt64.toNat_shiftRight,
    UInt64.toNat_shiftRight, Nat.shiftRight_xor_distrib]

/-- The exclusive or of a word with its upper bits, when three shifts leave
nothing of a word. -/
theorem xor_shiftRight_surjective {s : UInt64} (hlt : s.toNat < 64) (hs : 64 ≤ 3 * s.toNat) :
    Surjective fun x : UInt64 => x ^^^ (x >>> s) := by
  intro y
  have hgone : y >>> s >>> s >>> s = 0 := by
    apply UInt64.toNat_inj.mp
    rw [UInt64.toNat_shiftRight, UInt64.toNat_shiftRight, UInt64.toNat_shiftRight,
      Nat.mod_eq_of_lt hlt, ← Nat.shiftRight_add, ← Nat.shiftRight_add,
      Nat.shiftRight_eq_div_pow, UInt64.toNat_zero]
    apply Nat.div_eq_of_lt
    calc y.toNat < 2 ^ 64 := y.toNat_lt
      _ ≤ 2 ^ (s.toNat + (s.toNat + s.toNat)) := Nat.pow_le_pow_right (by omega) (by omega)
  refine ⟨y ^^^ (y >>> s) ^^^ (y >>> s >>> s), ?_⟩
  change y ^^^ (y >>> s) ^^^ (y >>> s >>> s) ^^^
    ((y ^^^ (y >>> s) ^^^ (y >>> s >>> s)) >>> s) = y
  rw [shiftRight_xor, shiftRight_xor, hgone, UInt64.xor_zero, UInt64.xor_assoc y,
    UInt64.xor_assoc, UInt64.xor_self, UInt64.xor_zero]

end Doctrina.Lib.Mixing
