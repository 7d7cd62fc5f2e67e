import Mathlib.Tactic.Common
import Mathlib.Data.Nat.Bitwise

/-!
# Bits in a list of words

Bit `i` is bit `i % 64` of word `i / 64`.  A bit is set by a mask of its word, and read by the
same mask.

## Main results

* `Bitmap.and_mask_ne_zero` — reading a bit by its mask.
* `Bitmap.bit_set` — every bit, after one is set.
-/

namespace Bitmap

def mask (i : ℕ) : UInt64 := 1 <<< UInt64.ofNat (i % 64)

def bit (words : List UInt64) (i : ℕ) : Bool := (words.getD (i / 64) 0).toNat.testBit (i % 64)

theorem toNat_mask (i : ℕ) : (mask i).toNat = 2 ^ (i % 64) := by
  have hi : i % 64 < 64 := Nat.mod_lt _ (by decide)
  have hpow : 2 ^ (i % 64) < 2 ^ 64 := Nat.pow_lt_pow_right (by decide) hi
  unfold mask
  rw [UInt64.toNat_shiftLeft, UInt64.toNat_ofNat', Nat.mod_eq_of_lt (show i % 64 < 2 ^ 64 by omega),
    Nat.mod_eq_of_lt hi, UInt64.toNat_one, Nat.one_shiftLeft, Nat.mod_eq_of_lt hpow]

theorem and_mask_ne_zero (word : UInt64) (i : ℕ) :
    word &&& mask i ≠ 0 ↔ word.toNat.testBit (i % 64) = true := by
  rw [← UInt64.toNat_inj.ne, UInt64.toNat_and, toNat_mask, Nat.and_two_pow, UInt64.toNat_zero]
  cases word.toNat.testBit (i % 64) <;> simp

theorem bit_set {words : List UInt64} {i : ℕ} {word : UInt64} (h : words[i / 64]? = some word)
    (j : ℕ) : bit (words.set (i / 64) (word ||| mask i)) j = (bit words j || decide (j = i)) := by
  obtain ⟨hlt, hword⟩ := List.getElem?_eq_some_iff.mp h
  unfold bit
  by_cases hj : i / 64 = j / 64
  · -- in the word of the bit, the mask is that of the bit
    have hsame : i % 64 = j % 64 ↔ j = i := by omega
    rw [List.getD_eq_getElem?_getD, List.getD_eq_getElem?_getD, ← hj,
      List.getElem?_set_self hlt, h, Option.getD_some, Option.getD_some, UInt64.toNat_or,
      toNat_mask, Nat.testBit_or, Nat.testBit_two_pow]
    simp only [hsame]
  · -- the other words are left alone
    have hne : j ≠ i := by
      rintro rfl
      exact hj rfl
    rw [List.getD_eq_getElem?_getD, List.getElem?_set_ne hj, ← List.getD_eq_getElem?_getD,
      decide_eq_false hne, Bool.or_false]

end Bitmap
