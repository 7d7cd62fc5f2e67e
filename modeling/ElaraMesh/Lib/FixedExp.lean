import Mathlib.Analysis.Complex.ExponentialBounds
import Mathlib.Data.Nat.Cast.Order.Field
import Mathlib.Tactic.Common

/-!
# The exponential in fixed point

With `q` for one, the terms of the alternating series of the exponential at `-r / q` are computed
one from the other, each rounded to the nearest number.  As a term is divided by its index, the
errors of the roundings do not add up: every term is off by at most one, and the sum by at most
the number of its terms.

## Main results

* `FixedExp.abs_altSum_sub_exp_le` — the sum is the exponential up to the number of its terms.
* `FixedExp.altSum_le_altSum` — it falls with the argument, if the arguments are far enough apart.
-/

/-- The quotient, rounded to the nearest number. -/
def roundDiv (a b : ℕ) : ℕ := (a + b / 2) / b

theorem roundDiv_mono {a a' : ℕ} (b : ℕ) (h : a ≤ a') : roundDiv a b ≤ roundDiv a' b :=
  Nat.div_le_div_right (Nat.add_le_add_right h _)

theorem roundDiv_le {a b c : ℕ} (hb : 0 < b) (h : a ≤ c * b) : roundDiv a b ≤ c := by
  refine Nat.lt_succ_iff.mp ((Nat.div_lt_iff_lt_mul hb).mpr ?_)
  rw [Nat.succ_mul]
  omega

theorem abs_roundDiv_sub_le (a : ℕ) {b : ℕ} (hb : 0 < b) :
    |(roundDiv a b : ℝ) - a / b| ≤ 1 / 2 := by
  have hbR : (0 : ℝ) < b := Nat.cast_pos.mpr hb
  have hdiv := Nat.div_add_mod (a + b / 2) b
  have hmod := Nat.mod_lt (a + b / 2) hb
  -- twice the error, as a difference of numbers
  have hlow : 2 * a ≤ 2 * (b * roundDiv a b) + b := by unfold roundDiv; omega
  have hhigh : 2 * (b * roundDiv a b) ≤ 2 * a + b := by unfold roundDiv; omega
  have hlowR : (2 : ℝ) * a ≤ 2 * (b * roundDiv a b) + b := by exact_mod_cast hlow
  have hhighR : (2 : ℝ) * (b * roundDiv a b) ≤ 2 * a + b := by exact_mod_cast hhigh
  have hcancel : (a : ℝ) / b * b = a := div_mul_cancel₀ _ hbR.ne'
  rw [abs_le]
  constructor
  · nlinarith
  · nlinarith

namespace FixedExp

open Finset (range)

/-- The terms of the series, in absolute value. -/
def term (q r : ℕ) : ℕ → ℕ
  | 0 => q
  | n + 1 => roundDiv (term q r n * r) ((n + 1) * q)

/-- The alternating sum of the first terms. -/
def altSum (q r n : ℕ) : ℤ := ∑ i ∈ range n, (-1) ^ i * (term q r i : ℤ)

variable {q r n : ℕ}

@[simp] theorem term_zero : term q r 0 = q := rfl

theorem term_succ_le (hq : 0 < q) (hr : r ≤ q) (n : ℕ) : term q r (n + 1) ≤ term q r n := by
  refine roundDiv_le (Nat.mul_pos n.succ_pos hq) (Nat.mul_le_mul_left _ ?_)
  exact hr.trans (Nat.le_mul_of_pos_left _ n.succ_pos)

theorem term_antitone (hq : 0 < q) (hr : r ≤ q) : Antitone (term q r) :=
  antitone_nat_of_succ_le (term_succ_le hq hr)

/-- The term without rounding. -/
noncomputable def exactTerm (q r n : ℕ) : ℝ := q * ((r / q : ℝ) ^ n / n.factorial)

theorem exactTerm_succ (q r n : ℕ) :
    exactTerm q r (n + 1) = exactTerm q r n * ((r / q : ℝ) / (n + 1)) := by
  unfold exactTerm
  rw [Nat.factorial_succ, pow_succ]
  push_cast
  field_simp

/-- A term is the one before it by its index, rounded. -/
theorem abs_term_succ_sub_le (hq : 0 < q) (n : ℕ) :
    |(term q r (n + 1) : ℝ) - term q r n * ((r / q : ℝ) / (n + 1))| ≤ 1 / 2 := by
  have h := abs_roundDiv_sub_le (term q r n * r) (Nat.mul_pos n.succ_pos hq)
  have hquot : ((term q r n * r : ℕ) : ℝ) / ((n.succ * q : ℕ) : ℝ) =
      term q r n * ((r / q : ℝ) / (n + 1)) := by
    push_cast
    field_simp
  rwa [hquot] at h

/-- An error shrinks by the index before the next rounding is added. -/
theorem abs_term_succ_sub_exactTerm_le (hq : 0 < q) (hr : r ≤ q) {e : ℝ}
    (he : |(term q r n : ℝ) - exactTerm q r n| ≤ e) :
    |(term q r (n + 1) : ℝ) - exactTerm q r (n + 1)| ≤ e / (n + 1) + 1 / 2 := by
  have hqR : (0 : ℝ) < q := Nat.cast_pos.mpr hq
  have hx1 : (r / q : ℝ) ≤ 1 := (div_le_one hqR).mpr (Nat.cast_le.mpr hr)
  have hfactor : (r / q : ℝ) / (n + 1) ≤ 1 / (n + 1) := by gcongr
  have hfactor0 : (0 : ℝ) ≤ (r / q : ℝ) / (n + 1) := by positivity
  rw [exactTerm_succ]
  calc |(term q r (n + 1) : ℝ) - exactTerm q r n * ((r / q : ℝ) / (n + 1))|
      = |((term q r (n + 1) : ℝ) - term q r n * ((r / q : ℝ) / (n + 1))) +
          ((term q r n : ℝ) - exactTerm q r n) * ((r / q : ℝ) / (n + 1))| := by ring_nf
    _ ≤ 1 / 2 + e * (1 / (n + 1)) := by
        refine (abs_add_le _ _).trans (add_le_add (abs_term_succ_sub_le hq n) ?_)
        rw [abs_mul, abs_of_nonneg hfactor0]
        exact mul_le_mul he hfactor hfactor0 ((abs_nonneg _).trans he)
    _ = e / (n + 1) + 1 / 2 := by ring

/-- Every term is off by at most one. -/
theorem abs_term_sub_le (hq : 0 < q) (hr : r ≤ q) (n : ℕ) :
    |(term q r n : ℝ) - exactTerm q r n| ≤ 1 := by
  induction n with
  | zero => simp [exactTerm]
  | succ n ih =>
    rcases Nat.eq_zero_or_pos n with rfl | hn
    · -- the first term is exact, and the second only off by its own rounding
      have hexact : |(term q r 0 : ℝ) - exactTerm q r 0| ≤ 0 := by simp [exactTerm]
      refine (abs_term_succ_sub_exactTerm_le hq hr hexact).trans ?_
      norm_num
    · refine (abs_term_succ_sub_exactTerm_le hq hr ih).trans ?_
      have hn1 : (1 : ℝ) / (n + 1) ≤ 1 / 2 := by
        have : (1 : ℝ) ≤ n := Nat.one_le_cast.mpr hn
        gcongr
        linarith
      linarith

/-- The sum is off by at most the number of terms. -/
theorem abs_altSum_sub_le (hq : 0 < q) (hr : r ≤ q) (n : ℕ) :
    |(altSum q r n : ℝ) - q * ∑ i ∈ range n, (-(r / q : ℝ)) ^ i / i.factorial| ≤ n := by
  have hcast : (altSum q r n : ℝ) - q * ∑ i ∈ range n, (-(r / q : ℝ)) ^ i / i.factorial =
      ∑ i ∈ range n, (-1) ^ i * ((term q r i : ℝ) - exactTerm q r i) := by
    unfold altSum exactTerm
    rw [Finset.mul_sum]
    push_cast
    rw [← Finset.sum_sub_distrib]
    refine Finset.sum_congr rfl fun i _ => ?_
    rw [neg_pow]
    ring
  rw [hcast]
  refine (Finset.abs_sum_le_sum_abs _ _).trans ?_
  calc ∑ i ∈ range n, |(-1 : ℝ) ^ i * ((term q r i : ℝ) - exactTerm q r i)|
      ≤ ∑ _i ∈ range n, (1 : ℝ) := by
        refine Finset.sum_le_sum fun i _ => ?_
        rw [abs_mul, abs_neg_one_pow, one_mul]
        exact abs_term_sub_le hq hr i
    _ = n := by simp

/-- The sum is the exponential up to the number of its terms and one for the rest of the series. -/
theorem abs_altSum_sub_exp_le (hq : 0 < q) (hr : r ≤ q) (hn : 0 < n)
    (hrest : q * n.succ ≤ n.factorial * n) :
    |(altSum q r n : ℝ) - q * Real.exp (-(r / q))| ≤ n + 1 := by
  have hqR : (0 : ℝ) < q := Nat.cast_pos.mpr hq
  have hx1 : |-(r / q : ℝ)| ≤ 1 := by
    rw [abs_neg, abs_of_nonneg (by positivity)]
    exact (div_le_one hqR).mpr (Nat.cast_le.mpr hr)
  have hseries := Real.exp_bound hx1 hn
  have hbound : |-(r / q : ℝ)| ^ n * (n.succ / (n.factorial * n)) ≤ 1 / q := by
    have hnR : (0 : ℝ) < n.factorial * n := by positivity
    have hrestR : (q : ℝ) * n.succ ≤ n.factorial * n := by exact_mod_cast hrest
    refine (mul_le_of_le_one_left (by positivity) (pow_le_one₀ (abs_nonneg _) hx1)).trans ?_
    rw [div_le_div_iff₀ hnR hqR]
    linarith
  have htail : |q * ∑ i ∈ range n, (-(r / q : ℝ)) ^ i / i.factorial - q * Real.exp (-(r / q))| ≤
      1 := by
    rw [← mul_sub, abs_mul, abs_of_pos hqR, abs_sub_comm]
    calc (q : ℝ) * _ ≤ q * (1 / q) := mul_le_mul_of_nonneg_left (hseries.trans hbound) hqR.le
      _ = 1 := mul_one_div_cancel hqR.ne'
  exact (abs_sub_le _ _ _).trans (add_le_add (abs_altSum_sub_le hq hr n) htail)

/-- The sum falls from one argument to the next, if they are far enough apart. -/
theorem altSum_le_altSum {r' : ℕ} (hq : 0 < q) (hr : r' ≤ q) (hn : 0 < n)
    (hrest : q * n.succ ≤ n.factorial * n) (hgap : r + 6 * (n + 1) ≤ r') :
    altSum q r' n ≤ altSum q r n := by
  have hqR : (0 : ℝ) < q := Nat.cast_pos.mpr hq
  have hhigh := (abs_le.mp (abs_altSum_sub_exp_le hq hr hn hrest)).2
  have hlow := (abs_le.mp (abs_altSum_sub_exp_le hq (by omega : r ≤ q) hn hrest)).1
  have hthird : (1 : ℝ) / 3 ≤ Real.exp (-(r' / q)) := by
    have hx1 : (r' / q : ℝ) ≤ 1 := (div_le_one hqR).mpr (Nat.cast_le.mpr hr)
    have hthree : Real.exp 1 ≤ 3 := Real.exp_one_lt_three.le
    calc (1 : ℝ) / 3 ≤ (Real.exp 1)⁻¹ := by
          rw [one_div]
          exact inv_anti₀ (Real.exp_pos 1) hthree
      _ = Real.exp (-1) := (Real.exp_neg 1).symm
      _ ≤ Real.exp (-(r' / q)) := Real.exp_le_exp.mpr (neg_le_neg hx1)
  have hgapR : (r : ℝ) + 6 * (n + 1) ≤ r' := by exact_mod_cast hgap
  have hfall : (q : ℝ) * Real.exp (-(r' / q)) + 2 * (n + 1) ≤ q * Real.exp (-(r / q)) := by
    have hsplit : Real.exp (-(r / q : ℝ)) =
        Real.exp (-(r' / q)) * Real.exp ((r' - r) / q) := by
      rw [← Real.exp_add]
      congr 1
      ring
    have hlin := Real.add_one_le_exp (((r' : ℝ) - r) / q)
    have hq1 : (q : ℝ) * (((r' : ℝ) - r) / q) = r' - r := mul_div_cancel₀ _ hqR.ne'
    rw [hsplit]
    calc (q : ℝ) * Real.exp (-(r' / q)) + 2 * (n + 1)
        ≤ q * Real.exp (-(r' / q)) + Real.exp (-(r' / q)) * (r' - r) := by nlinarith
      _ = q * (Real.exp (-(r' / q)) * (((r' : ℝ) - r) / q + 1)) := by
          linear_combination (-Real.exp (-(r' / q))) * hq1
      _ ≤ _ := by gcongr
  have hR : (altSum q r' n : ℝ) ≤ altSum q r n := by linarith
  exact_mod_cast hR

end FixedExp
