import ElaraMesh.Governance.Tally
import ElaraMesh.Lib.FixedExp
import Mathlib.Order.Iterate

/-!
# Governance: conviction grows

The conviction of a vote is its stake by one minus an exponential of its age.  The exponential is
computed in three parts that are rounded on their own: powers of the inverse of Euler's number for
the whole periods, a series for the rest of the age, and their product.  The age is a whole number
of seconds, and a second is more than a thousand units of the argument of the series, so that its
errors cannot turn the order of two ages.

## Main results

* `expSeries_eq` — the loop computes the alternating sum of the library.
* `expXQ_antitone` — the exponential falls with the age, also from one period to the next.
* `convictionQ_mono_bounded` — conviction grows with the stake and with the age, and is at most
  the stake.
-/

namespace ElaraMesh.Governance

open FixedExp (term altSum)

/-! ### The series -/

section Series

variable {r : ℕ}

theorem satMul_fractions {a b : ℕ} (ha : a ≤ convictionQOne) (hb : b ≤ convictionQOne) :
    U128.satMul a b = a * b :=
  min_eq_left ((Nat.mul_le_mul ha hb).trans (by decide))

theorem term_le (hr : r ≤ convictionQOne) (n : ℕ) : term convictionQOne r n ≤ convictionQOne :=
  FixedExp.term_antitone (by decide) hr (Nat.zero_le n)

/-- The sum so far leaves room for the next term. -/
def HasRoom (subtract : Bool) (acc next : ℕ) : Prop :=
  if subtract then next ≤ acc ∧ acc ≤ convictionQOne else acc + next ≤ convictionQOne

theorem HasRoom.le {subtract : Bool} {acc next : ℕ} (h : HasRoom subtract acc next) :
    acc ≤ convictionQOne := by
  unfold HasRoom at h
  cases subtract
  · exact (Nat.le_add_right _ _).trans h
  · exact h.2

/-- With a term that falls there is room for the one after it. -/
theorem HasRoom.step {subtract : Bool} {acc next after : ℕ} (h : HasRoom subtract acc next)
    (hafter : after ≤ next) :
    HasRoom (!subtract) (if subtract then acc - next else U128.satAdd acc next) after ∧
      ((if subtract then acc - next else U128.satAdd acc next : ℕ) : ℤ) =
        acc + (if subtract then -1 else 1) * (next : ℤ) := by
  unfold HasRoom at h ⊢
  cases subtract
  · have hfits : acc + next ≤ U128.max := le_trans h (by decide)
    have hsat : U128.satAdd acc next = acc + next := min_eq_left hfits
    simp only [Bool.false_eq_true, if_false] at h ⊢
    simp only [hsat, Bool.not_false, if_true]
    exact ⟨by omega, by push_cast; ring⟩
  · simp only [if_true] at h ⊢
    simp only [Bool.not_true, Bool.false_eq_true, if_false]
    omega

/-- The loop adds up the terms of the series; where it stops early they vanish. -/
theorem expSeries_eq (hr : r ≤ convictionQOne) (left n acc : ℕ) (subtract : Bool)
    (hcount : n + left ≤ 16)
    (hroom : HasRoom subtract acc (term convictionQOne r (n + 1))) :
    expSeries r left (n + 1) (term convictionQOne r n) acc subtract ≤ convictionQOne ∧
      (expSeries r left (n + 1) (term convictionQOne r n) acc subtract : ℤ) =
        acc + ∑ i ∈ Finset.range left, (if subtract then -1 else 1) * (-1) ^ i *
          (term convictionQOne r (n + 1 + i) : ℤ) := by
  induction left generalizing n acc subtract with
  | zero => exact ⟨hroom.le, by simp [expSeries]⟩
  | succ left ih =>
    have hdenom : U128.satMul (n + 1) convictionQOne = (n + 1) * convictionQOne := by
      unfold U128.satMul convictionQOne U128.max
      omega
    have hterm : (U128.satMul (term convictionQOne r n) r +
        U128.satMul (n + 1) convictionQOne / 2) / U128.satMul (n + 1) convictionQOne =
        term convictionQOne r (n + 1) := by
      rw [hdenom, satMul_fractions (term_le hr n) hr]
      rfl
    unfold expSeries
    dsimp only
    rw [hterm]
    split
    · next hzero =>
      refine ⟨hroom.le, ?_⟩
      have hvanish : ∀ i, term convictionQOne r (n + 1 + i) = 0 := fun i =>
        Nat.le_zero.mp (hzero ▸ FixedExp.term_antitone (by decide) hr (Nat.le_add_right _ i))
      simp [hvanish]
    · obtain ⟨hnext, hacc⟩ := hroom.step (FixedExp.term_succ_le (by decide) hr (n + 1))
      obtain ⟨hle, hsum⟩ := ih (n + 1) _ (!subtract) (by omega) hnext
      refine ⟨hle, ?_⟩
      rw [hsum, hacc, Finset.sum_range_succ']
      have hshift : ∀ i, term convictionQOne r (n + 1 + 1 + i) =
          term convictionQOne r (n + 1 + (i + 1)) := fun i => by rw [Nat.add_right_comm, Nat.add_assoc]
      simp only [hshift]
      cases subtract
      · simp [pow_succ]
        ring
      · simp [pow_succ]
        ring

/-- The exponential of `-r` by the loop. -/
def expRQ (r : ℕ) : ℕ := expSeries r 16 1 convictionQOne convictionQOne true

theorem expRQ_eq (hr : r ≤ convictionQOne) :
    expRQ r ≤ convictionQOne ∧ (expRQ r : ℤ) = altSum convictionQOne r 17 := by
  have hroom : HasRoom true convictionQOne (term convictionQOne r (0 + 1)) :=
    ⟨term_le hr 1, le_rfl⟩
  obtain ⟨hle, hsum⟩ := expSeries_eq hr 16 0 convictionQOne true (by decide) hroom
  refine ⟨hle, hsum.trans ?_⟩
  unfold altSum
  rw [Finset.sum_range_succ' _ 16]
  simp [pow_succ]
  ring_nf

/-- The rest of the series after the last term is less than a unit. -/
theorem rest_small : convictionQOne * Nat.succ 17 ≤ Nat.factorial 17 * 17 := by decide

/-- A second more makes the series fall. -/
theorem expRQ_antitone {r' : ℕ} (hgap : r + 1653 ≤ r') (hr : r' ≤ convictionQOne) :
    expRQ r' ≤ expRQ r := by
  have hfall : altSum convictionQOne r' 17 ≤ altSum convictionQOne r 17 :=
    FixedExp.altSum_le_altSum (by decide) hr (by decide) rest_small (by omega)
  have h := (expRQ_eq hr).2
  have h' := (expRQ_eq (le_trans (Nat.le_add_right r 1653) (hgap.trans hr))).2
  omega

/-- A second before the end of the period it has not fallen to the inverse of Euler's number. -/
theorem eInvQ_le_expRQ (hr : r + 1654 ≤ convictionQOne) : eInvQ ≤ expRQ r := by
  have hle : r ≤ convictionQOne := (Nat.le_add_right _ _).trans hr
  have hlow := (abs_le.mp (FixedExp.abs_altSum_sub_exp_le (by decide) hle (by decide)
    rest_small)).1
  have hq : (convictionQOne : ℝ) = 1000000000 := by norm_num [convictionQOne]
  have hrR : (r : ℝ) + 1654 ≤ 1000000000 := by rw [← hq]; exact_mod_cast hr
  have hinv : (0.36787944 : ℝ) ≤ Real.exp (-1) := by
    rw [Real.exp_neg, ← one_div, le_div_iff₀ (Real.exp_pos 1)]
    have := Real.exp_one_lt_d9
    linarith
  have hexp : Real.exp (-1) * (1 + 1654 / 1000000000) ≤ Real.exp (-(r / convictionQOne)) := by
    have hsplit : Real.exp (-(r / convictionQOne : ℝ)) =
        Real.exp (-1) * Real.exp (1 - r / convictionQOne) := by
      rw [← Real.exp_add]
      congr 1
      ring
    have hlin := Real.add_one_le_exp (1 - (r : ℝ) / convictionQOne)
    have harg : (1654 : ℝ) / 1000000000 ≤ 1 - r / convictionQOne := by
      rw [hq, le_sub_iff_add_le, ← add_div, div_le_one (by norm_num)]
      linarith
    rw [hsplit]
    refine mul_le_mul_of_nonneg_left ?_ (Real.exp_pos _).le
    linarith
  have hR : (eInvQ : ℝ) ≤ (altSum convictionQOne r 17 : ℤ) := by
    have he : (eInvQ : ℝ) = 367879441 := by norm_num [eInvQ]
    rw [he]
    rw [hq] at hlow hexp
    generalize ((altSum convictionQOne r 17 : ℤ) : ℝ) = total at hlow ⊢
    push_cast at hlow
    linarith
  have hZ : (eInvQ : ℤ) ≤ altSum convictionQOne r 17 := by exact_mod_cast hR
  rw [← (expRQ_eq hle).2] at hZ
  exact_mod_cast hZ

end Series

/-! ### Whole periods -/

/-- The exponential after some periods. -/
def expKQ (k : ℕ) : ℕ :=
  (fun e => (U128.satMul e eInvQ + convictionQOne / 2) / convictionQOne)^[k] convictionQOne

/-- The exponential at an age in units of the period. -/
def expXQ (xQ : ℕ) : ℕ :=
  (U128.satMul (expKQ (xQ / convictionQOne)) (expRQ (xQ % convictionQOne)) + convictionQOne / 2) /
    convictionQOne

theorem expKQ_antitone : Antitone expKQ := by
  refine Monotone.antitone_iterate_of_map_le (fun a b hab => ?_) (by decide)
  refine Nat.div_le_div_right (Nat.add_le_add_right ?_ _)
  exact min_le_min_right _ (Nat.mul_le_mul_right _ hab)

theorem expKQ_le (k : ℕ) : expKQ k ≤ convictionQOne := expKQ_antitone (Nat.zero_le k)

theorem expKQ_succ (k : ℕ) : expKQ (k + 1) = roundDiv (expKQ k * eInvQ) convictionQOne := by
  have hmul : U128.satMul (expKQ k) eInvQ = expKQ k * eInvQ :=
    satMul_fractions (expKQ_le k) (by decide)
  unfold roundDiv
  rw [← hmul]
  exact Function.iterate_succ_apply' _ k _

theorem expXQ_eq (xQ : ℕ) : expXQ xQ =
    roundDiv (expKQ (xQ / convictionQOne) * expRQ (xQ % convictionQOne)) convictionQOne := by
  have hr : xQ % convictionQOne ≤ convictionQOne := (Nat.mod_lt _ (by decide)).le
  unfold expXQ roundDiv
  rw [satMul_fractions (expKQ_le _) (expRQ_eq hr).1]

/-- An age is at least a second before the end of its period. -/
theorem age_mod_le (t : ℕ) :
    t * convictionQOne / convictionTauSecs % convictionQOne + 1654 ≤ convictionQOne := by
  have hlast : t % convictionTauSecs * convictionQOne / convictionTauSecs + 1654 ≤
      convictionQOne := by
    have := Nat.mod_lt t (by decide : 0 < convictionTauSecs)
    unfold convictionQOne convictionTauSecs at *
    omega
  have hage : t * convictionQOne / convictionTauSecs =
      t % convictionTauSecs * convictionQOne / convictionTauSecs +
        convictionQOne * (t / convictionTauSecs) := by
    unfold convictionQOne convictionTauSecs
    omega
  rw [hage, Nat.add_mul_mod_self_left]
  exact (Nat.add_le_add_right (Nat.mod_le _ _) _).trans hlast

/-- The exponential falls with the age. -/
theorem expXQ_antitone {t t' : ℕ} (h : t < t') :
    expXQ (t' * convictionQOne / convictionTauSecs) ≤
      expXQ (t * convictionQOne / convictionTauSecs) := by
  have hgap : t * convictionQOne / convictionTauSecs + 1653 ≤
      t' * convictionQOne / convictionTauSecs := by
    unfold convictionQOne convictionTauSecs
    omega
  have hend := age_mod_le t
  generalize t * convictionQOne / convictionTauSecs = x at hgap hend ⊢
  generalize t' * convictionQOne / convictionTauSecs = x' at hgap ⊢
  have hperiods : x / convictionQOne ≤ x' / convictionQOne := Nat.div_le_div_right (by omega)
  have hr : x' % convictionQOne ≤ convictionQOne := (Nat.mod_lt _ (by decide)).le
  rw [expXQ_eq, expXQ_eq]
  rcases hperiods.eq_or_lt with hsame | hlater
  · -- within a period it is the series that falls
    have hrest : x % convictionQOne + 1653 ≤ x' % convictionQOne := by
      have hx := Nat.div_add_mod x convictionQOne
      have hx' := Nat.div_add_mod x' convictionQOne
      rw [← hsame] at hx'
      omega
    rw [← hsame]
    exact roundDiv_mono _ (Nat.mul_le_mul_left _ (expRQ_antitone hrest hr))
  · -- between periods lies the power of the later one
    calc roundDiv (expKQ (x' / convictionQOne) * expRQ (x' % convictionQOne)) convictionQOne
        ≤ expKQ (x' / convictionQOne) :=
          roundDiv_le (by decide) (Nat.mul_le_mul_left _ (expRQ_eq hr).1)
      _ ≤ expKQ (x / convictionQOne + 1) := expKQ_antitone hlater
      _ = roundDiv (expKQ (x / convictionQOne) * eInvQ) convictionQOne := expKQ_succ _
      _ ≤ roundDiv (expKQ (x / convictionQOne) * expRQ (x % convictionQOne)) convictionQOne :=
          roundDiv_mono _ (Nat.mul_le_mul_left _ (eInvQ_le_expRQ hend))

/-! ### Conviction -/

/-- One minus the exponential, unless the age is beyond all effect. -/
theorem oneMinusExpNegQ_eq {t : ℕ} (ht : t ≠ 0) :
    oneMinusExpNegQ t convictionTauSecs =
      if 42 ≤ U128.satMul t convictionQOne / convictionTauSecs / convictionQOne then convictionQOne
      else convictionQOne -
        min (expXQ (U128.satMul t convictionQOne / convictionTauSecs)) convictionQOne :=
  if_neg (not_or.mpr ⟨ht, by decide⟩)

theorem oneMinusExpNegQ_mono {t t' : ℕ} (h : t ≤ t') :
    oneMinusExpNegQ t convictionTauSecs ≤ oneMinusExpNegQ t' convictionTauSecs := by
  rcases Nat.eq_zero_or_pos t with rfl | hpos
  · exact Nat.zero_le _
  rcases h.eq_or_lt with rfl | hlt
  · exact le_rfl
  have hle := oneMinusExpNegQ_le t convictionTauSecs
  rw [oneMinusExpNegQ_eq (by omega : t' ≠ 0)]
  split
  · exact hle
  · next hearly =>
    -- the age is small enough for the product with it not to saturate
    have hfits : t' * convictionQOne ≤ U128.max := by
      unfold U128.satMul convictionQOne convictionTauSecs U128.max at hearly
      unfold convictionQOne U128.max
      omega
    have hfits' : t * convictionQOne ≤ U128.max := (Nat.mul_le_mul_right _ h).trans hfits
    unfold U128.satMul at hearly ⊢
    rw [min_eq_left hfits] at hearly ⊢
    have hearlier : ¬ 42 ≤ t * convictionQOne / convictionTauSecs / convictionQOne := by
      have := Nat.div_le_div_right (c := convictionQOne)
        (Nat.div_le_div_right (c := convictionTauSecs) (Nat.mul_le_mul_right convictionQOne h))
      omega
    rw [oneMinusExpNegQ_eq hpos.ne', U128.satMul, min_eq_left hfits', if_neg hearlier]
    exact Nat.sub_le_sub_left (min_le_min_right _ (expXQ_antitone hlt)) _

/-- Conviction grows with the stake and with the age, and is at most the stake. -/
theorem convictionQ_mono_bounded {s s' t t' : ℕ} (hs : s ≤ s') (ht : t ≤ t') :
    convictionQ s t ≤ convictionQ s' t' ∧ convictionQ s t ≤ s * convictionQOne := by
  refine ⟨?_, convictionQ_le s t⟩
  unfold convictionQ
  split
  · exact Nat.zero_le _
  · next hne =>
    have hne' : ¬ (t' = 0 ∨ s' = 0) := by omega
    rw [if_neg hne']
    exact min_le_min_right _ (Nat.mul_le_mul hs (oneMinusExpNegQ_mono ht))

/-- The last second of the first period, with one unit more at stake. -/
theorem convictionQ_mono_bounded_period :
    (5 ≤ 6 ∧ 604799 ≤ 604800) ∧ convictionQ 5 604799 ≤ convictionQ 6 604800 ∧
      convictionQ 5 604799 ≤ 5 * convictionQOne :=
  ⟨by decide, convictionQ_mono_bounded (by decide) (by decide)⟩

end ElaraMesh.Governance
