import Mathlib.Tactic.Common
import Mathlib.Order.MinMax
import Mathlib.Algebra.GroupWithZero.Nat

/-!
# Unsigned 64-bit and 128-bit arithmetic on the naturals

A `u64` is modelled by a natural number, and the operations that notice the
bound are spelled out: `satAdd` and `satSub` saturate, `checkedAdd`
reports the overflow.  A sum that stays below the bound is the
ordinary sum, and that is all a proof needs to know about either.

## Main definitions

* `U64.max` — the largest `u64`.
* `U64.satAdd`, `U64.satSub`, `U64.satMul` — saturating addition, subtraction and
  multiplication.
* `U64.checkedAdd`, `U64.checkedSum` — the checked forms.
* `U64.wrap` — the low 64 bits.
* `U128.max`, `U128.satAdd`, `U128.satMul` — the saturating forms of a `u128`.
-/

namespace U64

/-- The largest value of a `u64`. -/
def max : ℕ := 18446744073709551615

def satAdd (a b : ℕ) : ℕ := if a + b ≤ max then a + b else max

def satSub (a b : ℕ) : ℕ := a - b

def satMul (a b : ℕ) : ℕ := min (a * b) max

/-- Addition that reports an overflow. -/
def checkedAdd (a b : ℕ) : Option ℕ := if a + b ≤ max then some (a + b) else none

/-- A sum that reports an overflow, whatever the order of its terms. -/
def checkedSum (l : List ℕ) : Option ℕ := if l.sum ≤ max then some l.sum else none

def wrap (n : ℕ) : ℕ := n % (max + 1)

theorem satAdd_eq_add {a b : ℕ} (h : a + b ≤ max) : satAdd a b = a + b := if_pos h

theorem satAdd_le_add (a b : ℕ) : satAdd a b ≤ a + b := by
  unfold satAdd; split <;> omega

theorem le_satAdd {a b c : ℕ} (h : c ≤ a + b) (hc : c ≤ max) : c ≤ satAdd a b := by
  unfold satAdd; split <;> omega

@[simp] theorem satAdd_zero_right {a : ℕ} (h : a ≤ max) : satAdd a 0 = a := satAdd_eq_add h

theorem checkedSum_eq_some {l : List ℕ} {c : ℕ} :
    checkedSum l = some c ↔ c = l.sum ∧ l.sum ≤ max := by
  unfold checkedSum
  split
  · next h => simp [h, eq_comm]
  · next h => simp [h]

end U64

namespace U128

/-- The largest value of a `u128`. -/
def max : ℕ := 340282366920938463463374607431768211455

def satAdd (a b : ℕ) : ℕ := min (a + b) max

def satMul (a b : ℕ) : ℕ := min (a * b) max

/-- A saturating sum does not depend on the order of its terms. -/
theorem foldl_satAdd (terms : List ℕ) (start : ℕ) (hstart : start ≤ max) :
    terms.foldl satAdd start = min (start + terms.sum) max := by
  induction terms generalizing start with
  | nil => exact (min_eq_left hstart).symm
  | cons t terms ih =>
    rw [List.foldl_cons, ih (satAdd start t) (min_le_right _ _), List.sum_cons]
    unfold satAdd
    omega

theorem min_sum_min (terms : List ℕ) :
    min ((terms.map (min · max)).sum) max = min terms.sum max := by
  induction terms with
  | nil => rfl
  | cons t terms ih =>
    simp only [List.map_cons, List.sum_cons]
    omega

end U128
