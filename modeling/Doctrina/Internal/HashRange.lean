import Doctrina.Internal.Hash
import Doctrina.Lib.Mixing
/-!
# Every word is a hash

On the keys of eight bytes `xxh3` takes every value, and so it does on the keys
of sixteen bytes, so that every word is the hash of at least two keys.
-/

namespace Doctrina.Internal

open Function Doctrina.Lib.Mixing

theorem xxhRotl64_surjective {r : UInt64} (hpos : 0 < r.toNat) (hlt : r.toNat < 64) :
    Surjective fun x => xxhRotl64 x r := rotate_surjective hpos hlt

theorem mul_prime_1_surjective : Surjective fun x : UInt64 => x * XXH_PRIME_1 :=
  mul_surjective XXH_PRIME_1 614540362697595703 (by decide)

theorem mul_prime_2_surjective : Surjective fun x : UInt64 => x * XXH_PRIME_2 :=
  mul_surjective XXH_PRIME_2 839798700976720815 (by decide)

theorem mul_prime_3_surjective : Surjective fun x : UInt64 => x * XXH_PRIME_3 :=
  mul_surjective XXH_PRIME_3 16855272203555305545 (by decide)

theorem xxhAvalanche_surjective : Surjective xxhAvalanche := by
  have h33 : Surjective fun x : UInt64 => x ^^^ (x >>> 33) :=
    xor_shiftRight_surjective (by decide) (by decide)
  have h29 : Surjective fun x : UInt64 => x ^^^ (x >>> 29) :=
    xor_shiftRight_surjective (by decide) (by decide)
  have h32 : Surjective fun x : UInt64 => x ^^^ (x >>> 32) :=
    xor_shiftRight_surjective (by decide) (by decide)
  exact h32.comp (mul_prime_3_surjective.comp (h29.comp (mul_prime_2_surjective.comp h33)))

theorem xxhRound_surjective (h64 : UInt64) : Surjective fun word : UInt64 =>
    xxhRotl64 (h64 ^^^ (xxhRotl64 (word * XXH_PRIME_2) 31 * XXH_PRIME_1)) 27 * XXH_PRIME_1 +
      XXH_PRIME_4 := by
  have h31 := xxhRotl64_surjective (r := 31) (by decide) (by decide)
  have h27 := xxhRotl64_surjective (r := 27) (by decide) (by decide)
  exact (add_surjective XXH_PRIME_4).comp (mul_prime_1_surjective.comp (h27.comp
    ((xor_surjective h64).comp (mul_prime_1_surjective.comp
      (h31.comp mul_prime_2_surjective)))))

theorem xxhRead64_wordBytes (word : UInt64) (p : List UInt8) :
    xxhRead64 (wordBytes word ++ p) = word := by
  rw [xxhRead64, List.take_left' (length_wordBytes word), readLE_wordBytes]

theorem drop_wordBytes (word : UInt64) (p : List UInt8) :
    (wordBytes word ++ p).drop 8 = p :=
  List.drop_left' (length_wordBytes word)

theorem exists_xxhWords_one (h64 target : UInt64) :
    ∃ word, xxhWords 1 h64 (wordBytes word) = (target, []) := by
  obtain ⟨word, hword⟩ := xxhRound_surjective h64 target
  refine ⟨word, ?_⟩
  have hread := xxhRead64_wordBytes word []
  have hdrop := drop_wordBytes word []
  rw [List.append_nil] at hread hdrop
  rw [xxhWords, xxhWords, hread, hdrop]
  exact congrArg (·, []) hword

theorem xxh3_of_xxhWords {data : List UInt8} {seed h64 : UInt64} (hlen : data.length < 32)
    (hwords : xxhWords (data.length / 8) (seed + XXH_PRIME_5 + .ofNat data.length) data =
      (h64, [])) : xxh3 data seed = xxhAvalanche h64 := by
  simp only [xxh3, if_neg (Nat.not_le.mpr hlen), hwords]
  rfl

theorem exists_xxh3_one_word (seed target : UInt64) :
    ∃ word, xxh3 (wordBytes word) seed = target := by
  obtain ⟨mixed, hmixed⟩ := xxhAvalanche_surjective target
  obtain ⟨word, hword⟩ := exists_xxhWords_one (seed + XXH_PRIME_5 + .ofNat 8) mixed
  refine ⟨word, ?_⟩
  rw [← hmixed]
  apply xxh3_of_xxhWords
  · rw [length_wordBytes]
    decide
  · rw [length_wordBytes]
    exact hword

theorem exists_xxh3_two_words (seed target : UInt64) :
    ∃ word, xxh3 (wordBytes 0 ++ wordBytes word) seed = target := by
  obtain ⟨mixed, hmixed⟩ := xxhAvalanche_surjective target
  obtain ⟨word, hword⟩ := exists_xxhWords_one
    (xxhRotl64 ((seed + XXH_PRIME_5 + .ofNat 16) ^^^
      (xxhRotl64 (0 * XXH_PRIME_2) 31 * XXH_PRIME_1)) 27 * XXH_PRIME_1 + XXH_PRIME_4) mixed
  have hlen : (wordBytes 0 ++ wordBytes word).length = 16 := by
    rw [List.length_append, length_wordBytes, length_wordBytes]
  refine ⟨word, ?_⟩
  rw [← hmixed]
  apply xxh3_of_xxhWords
  · rw [hlen]
    decide
  · rw [hlen]
    change xxhWords (1 + 1) _ _ = _
    rw [xxhWords, xxhRead64_wordBytes, drop_wordBytes]
    exact hword

/-- Every word is the hash of a key other than a given one. -/
theorem exists_xxh3_ne (seed target : UInt64) (other : List UInt8) :
    ∃ key, key ≠ [] ∧ key ≠ other ∧ xxh3 key seed = target := by
  obtain ⟨one, hone⟩ := exists_xxh3_one_word seed target
  obtain ⟨two, htwo⟩ := exists_xxh3_two_words seed target
  by_cases hother : wordBytes one = other
  · refine ⟨wordBytes 0 ++ wordBytes two, ?_, ?_, htwo⟩
    · exact List.append_ne_nil_of_left_ne_nil (wordBytes_ne_nil 0) _
    · intro heq
      have hlen := congrArg List.length (heq.trans hother.symm)
      rw [List.length_append, length_wordBytes, length_wordBytes, length_wordBytes] at hlen
      omega
  · exact ⟨wordBytes one, wordBytes_ne_nil one, hother, hone⟩

end Doctrina.Internal
