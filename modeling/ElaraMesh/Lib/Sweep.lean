import Mathlib.Data.Finset.Max
import Mathlib.Data.Finset.Card
import Mathlib.Logic.Function.Iterate

/-!
# Sweeps over the first members of a set

A sweep looks at the first `n` members of a finite set and clears those that are good; the others
stay where they are and are looked at again by the next sweep.  So the members that are not good
take up room at the front for ever: a good member is cleared after some sweeps exactly if fewer than
`n` others are before it.

## Main results

* `Sweep.cleared_iff` — when a member is cleared.
-/

namespace Sweep

variable {α : Type} [LinearOrder α] {n : ℕ} {good : α → Prop} [DecidablePred good] {s : Finset α}
  {a b : α}

def before (s : Finset α) (a : α) : Finset α := s.filter (· < a)

def first (n : ℕ) (s : Finset α) : Finset α := s.filter fun a => (before s a).card < n

def sweep (n : ℕ) (good : α → Prop) [DecidablePred good] (s : Finset α) : Finset α :=
  s.filter fun a => ¬ (good a ∧ a ∈ first n s)

/-- The members before a given one that are never cleared. -/
def stuck (good : α → Prop) [DecidablePred good] (s : Finset α) (a : α) : Finset α :=
  (before s a).filter fun b => ¬ good b

theorem mem_before : b ∈ before s a ↔ b ∈ s ∧ b < a := Finset.mem_filter

theorem mem_first : a ∈ first n s ↔ a ∈ s ∧ (before s a).card < n := Finset.mem_filter

theorem mem_sweep : a ∈ sweep n good s ↔ a ∈ s ∧ ¬ (good a ∧ a ∈ first n s) := Finset.mem_filter

theorem mem_stuck : b ∈ stuck good s a ↔ (b ∈ s ∧ b < a) ∧ ¬ good b := by
  rw [stuck, Finset.mem_filter, mem_before]

theorem sweep_subset : sweep n good s ⊆ s := Finset.filter_subset _ _

theorem before_mono {s' : Finset α} (h : s' ⊆ s) (a : α) : before s' a ⊆ before s a :=
  Finset.filter_subset_filter _ h

/-- Only what is good among the members matters. -/
theorem iterate_congr {good' : α → Prop} [DecidablePred good'] (h : ∀ a ∈ s, (good a ↔ good' a))
    (k : ℕ) : (sweep n good)^[k] s = (sweep n good')^[k] s := by
  induction k generalizing s with
  | zero => rfl
  | succ k ih =>
    have hsweep : sweep n good s = sweep n good' s := by
      refine Finset.filter_congr fun a ha => ?_
      rw [h a ha]
    rw [Function.iterate_succ_apply, Function.iterate_succ_apply, ← hsweep]
    exact ih fun a ha => h a (sweep_subset ha)

theorem stuck_sweep (a : α) : stuck good (sweep n good s) a = stuck good s a := by
  ext b
  rw [mem_stuck, mem_stuck, mem_sweep]
  constructor
  · rintro ⟨⟨⟨hb, -⟩, hlt⟩, hbad⟩
    exact ⟨⟨hb, hlt⟩, hbad⟩
  · rintro ⟨⟨hb, hlt⟩, hbad⟩
    exact ⟨⟨⟨hb, fun hc => hbad hc.1⟩, hlt⟩, hbad⟩

/-- Where fewer than `n` are stuck but more are before a member, a good one of these is looked at. -/
theorem exists_good_first (hstuck : (stuck good s a).card < n) (hbefore : n ≤ (before s a).card) :
    ∃ b ∈ before s a, good b ∧ b ∈ first n s := by
  have hex : ((before s a).filter good).Nonempty := by
    by_contra hnone
    rw [Finset.not_nonempty_iff_eq_empty, Finset.filter_eq_empty_iff] at hnone
    have hall : stuck good s a = before s a := Finset.filter_true_of_mem fun b hb => hnone hb
    rw [hall] at hstuck
    exact absurd hbefore (Nat.not_le.mpr hstuck)
  -- before the least good one there are only members that are stuck
  obtain ⟨hmin, hgood⟩ := Finset.mem_filter.mp (Finset.min'_mem _ hex)
  refine ⟨_, hmin, hgood, mem_first.mpr ⟨(mem_before.mp hmin).1, lt_of_le_of_lt ?_ hstuck⟩⟩
  refine Finset.card_le_card fun b hb => ?_
  obtain ⟨hbs, hlt⟩ := mem_before.mp hb
  have hba : b < a := hlt.trans (mem_before.mp hmin).2
  refine mem_stuck.mpr ⟨⟨hbs, hba⟩, fun hc => ?_⟩
  have hle := Finset.min'_le _ b (Finset.mem_filter.mpr ⟨mem_before.mpr ⟨hbs, hba⟩, hc⟩)
  exact absurd hlt (not_lt.mpr hle)

theorem exists_cleared (ha : good a) (hstuck : (stuck good s a).card < n) :
    ∃ k, a ∉ (sweep n good)^[k] s := by
  induction hm : (before s a).card using Nat.strong_induction_on generalizing s with
  | h m ih =>
    by_cases hfirst : a ∈ first n s
    · exact ⟨1, fun hc => (mem_sweep.mp hc).2 ⟨ha, hfirst⟩⟩
    · by_cases has : a ∈ s
      · have hbefore : n ≤ (before s a).card := by
          by_contra hlt
          exact hfirst (mem_first.mpr ⟨has, Nat.lt_of_not_le hlt⟩)
        -- a good member before `a` is cleared, so that there are fewer
        obtain ⟨b, hb, hgood, hbfirst⟩ := exists_good_first hstuck hbefore
        have hless : (before (sweep n good s) a).card < m := by
          rw [← hm]
          refine Finset.card_lt_card ⟨before_mono sweep_subset a, fun hsub => ?_⟩
          exact (mem_sweep.mp (mem_before.mp (hsub hb)).1).2 ⟨hgood, hbfirst⟩
        obtain ⟨k, hk⟩ := ih _ hless (by rwa [stuck_sweep]) rfl
        exact ⟨k + 1, by rwa [Function.iterate_succ_apply]⟩
      · exact ⟨0, has⟩

/-- Behind `n` members that are stuck, nothing is ever cleared. -/
theorem mem_of_stuck (ha : a ∈ s) (hstuck : n ≤ (stuck good s a).card) (k : ℕ) :
    a ∈ (sweep n good)^[k] s := by
  induction k generalizing s with
  | zero => exact ha
  | succ k ih =>
    rw [Function.iterate_succ_apply]
    refine ih (mem_sweep.mpr ⟨ha, fun hc => ?_⟩) (by rwa [stuck_sweep])
    have hle : (stuck good s a).card ≤ (before s a).card :=
      Finset.card_le_card (Finset.filter_subset _ _)
    exact absurd (hstuck.trans hle) (Nat.not_le.mpr (mem_first.mp hc.2).2)

/-- A good member is cleared after some sweeps exactly if fewer than `n` are stuck before it. -/
theorem cleared_iff (has : a ∈ s) (ha : good a) :
    (∃ k, a ∉ (sweep n good)^[k] s) ↔ (stuck good s a).card < n := by
  refine ⟨?_, exists_cleared ha⟩
  rintro ⟨k, hk⟩
  by_contra hstuck
  exact hk (mem_of_stuck has (Nat.le_of_not_lt hstuck) k)

end Sweep
