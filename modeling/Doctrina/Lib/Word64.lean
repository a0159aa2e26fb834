import Mathlib.Data.Nat.ModEq
import Mathlib.Algebra.Order.Monoid.NatCast
/-!
# Arithmetic of 64-bit words

`UInt64` arithmetic seen modulo a divisor of `2 ^ 64`, and the mask of a
power of two.
-/

namespace Doctrina.Lib.Word64

/-- A word that is a power of two. -/
def IsPow2 (w : UInt64) : Prop := ∃ k, w.toNat = 2 ^ k

theorem IsPow2.pos {w : UInt64} (h : IsPow2 w) : 0 < w.toNat := by
  obtain ⟨k, hk⟩ := h
  rw [hk]
  exact Nat.two_pow_pos k

theorem IsPow2.dvd_radix {w : UInt64} (h : IsPow2 w) : w.toNat ∣ 2 ^ 64 := by
  obtain ⟨k, hk⟩ := h
  have hlt : 2 ^ k < 2 ^ 64 := hk ▸ w.toNat_lt
  rw [hk]
  exact pow_dvd_pow 2 (Nat.le_of_lt ((Nat.pow_lt_pow_iff_right (by omega)).mp hlt))

theorem IsPow2.two_mul_le {w : UInt64} (h : IsPow2 w) : 2 * w.toNat ≤ 2 ^ 64 := by
  obtain ⟨k, hk⟩ := h
  have hlt : 2 ^ k < 2 ^ 64 := hk ▸ w.toNat_lt
  have hk64 : k + 1 ≤ 64 := (Nat.pow_lt_pow_iff_right (by omega)).mp hlt
  calc 2 * w.toNat = 2 ^ (k + 1) := by rw [hk, pow_succ, Nat.mul_comm]
    _ ≤ 2 ^ 64 := Nat.pow_le_pow_right (by omega) hk64

theorem toNat_and_pred {w : UInt64} (h : IsPow2 w) (x : UInt64) :
    (x &&& (w - 1)).toNat = x.toNat % w.toNat := by
  have hpos := h.pos
  have hlt := w.toNat_lt
  have hpred : (w - 1).toNat = w.toNat - 1 := by
    rw [UInt64.toNat_sub, UInt64.toNat_one]
    omega
  obtain ⟨k, hk⟩ := h
  rw [UInt64.toNat_and, hpred, hk, Nat.and_two_pow_sub_one_eq_mod]

theorem toNat_add_modEq {n : Nat} (hn : n ∣ 2 ^ 64) (a b : UInt64) :
    (a + b).toNat ≡ a.toNat + b.toNat [MOD n] := by
  rw [UInt64.toNat_add]
  exact (Nat.mod_modEq _ _).of_dvd hn

theorem dvd_toNat_add {n : Nat} (hn : n ∣ 2 ^ 64) {a b : UInt64}
    (ha : n ∣ a.toNat) (hb : n ∣ b.toNat) : n ∣ (a + b).toNat :=
  (toNat_add_modEq hn a b).dvd_iff (dvd_refl n) |>.mpr (Nat.dvd_add ha hb)

theorem toNat_sub_of_le {a b : UInt64} (h : b.toNat ≤ a.toNat) :
    (a - b).toNat = a.toNat - b.toNat := by
  have ha := a.toNat_lt
  rw [UInt64.toNat_sub]
  omega

theorem toNat_sub_of_lt {a b : UInt64} (h : a.toNat < b.toNat) :
    (a - b).toNat = 2 ^ 64 - b.toNat + a.toNat := by
  have hb := b.toNat_lt
  rw [UInt64.toNat_sub]
  omega

theorem toNat_add_of_lt {a b : UInt64} (h : a.toNat + b.toNat < 2 ^ 64) :
    (a + b).toNat = a.toNat + b.toNat := by
  rw [UInt64.toNat_add]
  omega

theorem toNat_add_sub {a b c : UInt64} (h : (a - b).toNat + c.toNat < 2 ^ 64) :
    (a + c - b).toNat = (a - b).toNat + c.toNat := by
  have ha := a.toNat_lt
  have hb := b.toNat_lt
  have hc := c.toNat_lt
  rw [UInt64.toNat_sub] at h
  rw [UInt64.toNat_sub, UInt64.toNat_sub, UInt64.toNat_add]
  omega

theorem toNat_sub_add {a b c : UInt64} (h : c.toNat ≤ (a - b).toNat) :
    (a - (b + c)).toNat = (a - b).toNat - c.toNat := by
  have ha := a.toNat_lt
  have hb := b.toNat_lt
  have hc := c.toNat_lt
  rw [UInt64.toNat_sub] at h
  rw [UInt64.toNat_sub, UInt64.toNat_sub, UInt64.toNat_add]
  omega

theorem toNat_sub_eq_zero {a b : UInt64} : (a - b).toNat = 0 ↔ b = a := by
  have ha := a.toNat_lt
  have hb := b.toNat_lt
  rw [← UInt64.toNat_inj, UInt64.toNat_sub]
  omega

theorem toNat_modEq_add_sub {n : Nat} (hn : n ∣ 2 ^ 64) (a b : UInt64) :
    a.toNat ≡ b.toNat + (a - b).toNat [MOD n] := by
  have h := toNat_add_modEq hn b (a - b)
  rwa [UInt64.add_comm, UInt64.sub_add_cancel] at h

end Doctrina.Lib.Word64
