import ElaraMesh.Governance.Tally
import Mathlib.Tactic.Linarith

/-!
# Governance: the share of one voter

No voter is to have more than one part in `√N` of a tally of `N` votes.  The cap that is to see to
this is computed from the total before anything is cut off, and what is cut off is missing in the
total afterwards.  So the cap only bounds the share of a voter if it has nothing to cut, up to the
rounding of the cap.

## Main results

* `tallyVotes_total` — the tally adds up what is counted of each vote.
* `shareBounded_iff` — the share is bounded exactly if it is so before the cut, or less than `√N`
  units are cut off and the cap was rounded down by that much.
-/

namespace ElaraMesh.Governance

open Record (Str)

/-! ### What is counted -/

def voterPower (now : F64) (v : Vote) : ℕ := (votePower (secsFloor now) v).2

def totalPower (votes : List Vote) (now : F64) : ℕ := (votes.map (voterPower now)).sum

def powerCap (votes : List Vote) (now : F64) : ℕ := identityCapQ (totalPower votes now) votes.length

def countedPower (votes : List Vote) (now : F64) (v : Vote) : ℕ :=
  min (voterPower now v) (powerCap votes now)

/-- What is cut off. -/
def excess (votes : List Vote) (now : F64) : ℕ :=
  (votes.map fun v => voterPower now v - powerCap votes now).sum

def VoteTally.total (tally : VoteTally) : ℕ :=
  tally.forConvictionQ + tally.againstConvictionQ + tally.abstainConvictionQ

/-- No voter has more than one part in `√N` of the tally. -/
def ShareBounded (votes : List Vote) (now : F64) (tally : VoteTally) : Prop :=
  ∀ v ∈ votes, votes.length * countedPower votes now v ^ 2 ≤ tally.total ^ 2

section Powers

variable {now : F64} {votes : List Vote} {tally : VoteTally}

theorem voterPower_le (now : F64) (v : Vote) : voterPower now v ≤ v.stake * convictionQOne := by
  have hconviction := convictionQ_le v.stake (U64.satSub (secsFloor now) (secsFloor v.votedAt))
  have hself : v.stake * convictionQOne * convictionQOne ≤
      v.stake * convictionQOne * (v.stake * convictionQOne) := by
    rcases Nat.eq_zero_or_pos v.stake with hzero | hpos
    · simp [hzero]
    · exact Nat.mul_le_mul_left _ (Nat.le_mul_of_pos_left _ hpos)
  refine (Nat.sqrt_le_sqrt ?_).trans (Nat.sqrt_eq (v.stake * convictionQOne)).le
  exact (min_le_left _ _).trans ((Nat.mul_le_mul_right _ hconviction).trans hself)

theorem totalPower_le (now : F64) (votes : List Vote) :
    totalPower votes now ≤ (votes.map Vote.stake).sum * convictionQOne := by
  unfold totalPower
  induction votes with
  | nil => simp
  | cons v votes ih =>
    have hv := voterPower_le now v
    simp only [List.map_cons, List.sum_cons, Nat.add_mul]
    omega

/-- What is counted and what is cut off make up the power of all votes. -/
theorem sum_countedPower_add_excess (votes : List Vote) (now : F64) :
    (votes.map (countedPower votes now)).sum + excess votes now = totalPower votes now := by
  unfold excess totalPower countedPower
  rw [← List.sum_map_add]
  congr 1
  refine List.map_congr_left fun v _ => ?_
  omega

theorem sum_countedPower_le (votes : List Vote) (now : F64) :
    (votes.map (countedPower votes now)).sum ≤ totalPower votes now := by
  have h := sum_countedPower_add_excess votes now
  omega

/-! ### The tally -/

/-- The powers of one direction, if they do not saturate. -/
theorem directionPower_eq {capQ : ℕ} {powers : List (VoteDirection × ℕ)}
    (hfits : (powers.map fun p => min p.2 capQ).sum ≤ U128.max) (direction : VoteDirection) :
    directionPower capQ powers direction =
      ((powers.filter fun p => p.1 = direction).map fun p => min p.2 capQ).sum := by
  have hle : ((powers.filter fun p => p.1 = direction).map fun p => min p.2 capQ).sum ≤
      (powers.map fun p => min p.2 capQ).sum :=
    (List.filter_sublist.map _).sum_le_sum fun _ _ => Nat.zero_le _
  unfold directionPower
  rw [← List.foldl_map (f := fun p : VoteDirection × ℕ => min p.2 capQ) (g := U128.satAdd),
    U128.foldl_satAdd _ _ (Nat.zero_le _), Nat.zero_add]
  exact min_eq_left (hle.trans hfits)

/-- The three directions make up the whole. -/
theorem sum_directions (capQ : ℕ) (powers : List (VoteDirection × ℕ)) :
    ((powers.filter fun p => p.1 = .isFor).map fun p => min p.2 capQ).sum +
        ((powers.filter fun p => p.1 = .against).map fun p => min p.2 capQ).sum +
        ((powers.filter fun p => p.1 = .abstain).map fun p => min p.2 capQ).sum =
      (powers.map fun p => min p.2 capQ).sum := by
  induction powers with
  | nil => rfl
  | cons p powers ih =>
    obtain ⟨direction, power⟩ := p
    cases direction <;> simp <;> omega

/-- The tally adds up what is counted of each vote. -/
theorem tallyVotes_total {p : Proposal} (hne : p.votes ≠ [])
    (htally : tallyVotes p now = some tally) :
    tally.total = (p.votes.map (countedPower p.votes now)).sum ∧
      (p.votes.map Vote.stake).sum ≤ U64.max := by
  unfold tallyVotes at htally
  rw [if_neg hne] at htally
  obtain ⟨raw, hraw, htally⟩ := Option.bind_eq_some_iff.mp htally
  obtain ⟨-, hstakes⟩ := U64.checkedSum_eq_some.mp hraw
  refine ⟨?_, hstakes⟩
  have hperm := List.perm_insertionSort voteLe p.votes
  -- the order of the votes does not matter to a sum
  have hpowers : ∀ f : VoteDirection × ℕ → ℕ,
      (((p.votes.insertionSort voteLe).map (votePower (secsFloor now))).map f).sum =
        (p.votes.map fun v => f (votePower (secsFloor now) v)).sum := by
    intro f
    rw [List.map_map]
    exact (hperm.map _).sum_eq
  have hmax : totalPower p.votes now ≤ U128.max :=
    (totalPower_le now p.votes).trans
      ((Nat.mul_le_mul_right _ hstakes).trans (by decide))
  have htotal : ((p.votes.insertionSort voteLe).map (votePower (secsFloor now))).foldl
      (fun acc p => U128.satAdd acc p.2) 0 = totalPower p.votes now := by
    rw [← List.foldl_map (f := Prod.snd) (g := U128.satAdd), U128.foldl_satAdd _ _ (Nat.zero_le _),
      Nat.zero_add, hpowers Prod.snd]
    exact min_eq_left hmax
  have hcap : identityCapQ (((p.votes.insertionSort voteLe).map (votePower (secsFloor now))).foldl
      (fun acc p => U128.satAdd acc p.2) 0)
      ((p.votes.insertionSort voteLe).map (votePower (secsFloor now))).length =
      powerCap p.votes now := by
    rw [htotal, List.length_map, hperm.length_eq]
    rfl
  have hcounted := hpowers fun q => min q.2 (powerCap p.votes now)
  have hfits : (((p.votes.insertionSort voteLe).map (votePower (secsFloor now))).map fun q =>
      min q.2 (powerCap p.votes now)).sum ≤ U128.max := by
    rw [hcounted]
    exact (sum_countedPower_le p.votes now).trans hmax
  cases htally
  unfold VoteTally.total
  dsimp only
  rw [hcap, directionPower_eq hfits, directionPower_eq hfits, directionPower_eq hfits,
    sum_directions, hcounted]
  rfl

/-! ### The cap -/

/-- The cap is the total by the rounded root of the number of votes. -/
theorem powerCap_eq (hcount : 2 ≤ votes.length)
    (hfits : totalPower votes now * convictionQOne ≤ U128.max) :
    ∃ root, 0 < root ∧ root ^ 2 ≤ votes.length * convictionQOne ^ 2 ∧
      powerCap votes now = totalPower votes now * convictionQOne / root := by
  have hpos : 0 < (U128.satMul (U128.satMul votes.length convictionQOne) convictionQOne).sqrt := by
    refine Nat.sqrt_pos.mpr ?_
    unfold U128.satMul convictionQOne U128.max
    omega
  have hmul : U128.satMul (totalPower votes now) convictionQOne =
      totalPower votes now * convictionQOne := min_eq_left hfits
  refine ⟨_, hpos, ?_, ?_⟩
  · refine (Nat.sqrt_le' _).trans ((min_le_left _ _).trans ?_)
    rw [pow_two, ← Nat.mul_assoc]
    exact Nat.mul_le_mul_right _ (min_le_left _ _)
  · unfold powerCap identityCapQ
    rw [if_neg (by omega)]
    dsimp only
    rw [if_neg hpos.ne', hmul]

/-- A power that is no larger than its share is not cut. -/
theorem le_powerCap {power : ℕ} (hcount : 2 ≤ votes.length)
    (hfits : totalPower votes now * convictionQOne ≤ U128.max)
    (hpower : votes.length * power ^ 2 ≤ totalPower votes now ^ 2) :
    power ≤ powerCap votes now := by
  obtain ⟨root, hpos, hroot, hcap⟩ := powerCap_eq hcount hfits
  rw [hcap, Nat.le_div_iff_mul_le hpos]
  refine (Nat.pow_le_pow_iff_left two_ne_zero).mp ?_
  calc (power * root) ^ 2 = power ^ 2 * root ^ 2 := Nat.mul_pow ..
    _ ≤ power ^ 2 * (votes.length * convictionQOne ^ 2) := Nat.mul_le_mul_left _ hroot
    _ = votes.length * power ^ 2 * convictionQOne ^ 2 := by ring
    _ ≤ totalPower votes now ^ 2 * convictionQOne ^ 2 := Nat.mul_le_mul_right _ hpower
    _ = (totalPower votes now * convictionQOne) ^ 2 := (Nat.mul_pow ..).symm

/-- The cap is rounded down by less than one unit. -/
theorem totalPower_sq_lt (hcount : 2 ≤ votes.length)
    (hfits : totalPower votes now * convictionQOne ≤ U128.max) :
    totalPower votes now ^ 2 < votes.length * (powerCap votes now + 1) ^ 2 := by
  obtain ⟨root, hpos, hroot, hcap⟩ := powerCap_eq hcount hfits
  have hlt : totalPower votes now * convictionQOne < (powerCap votes now + 1) * root := by
    rw [hcap]
    exact (Nat.div_lt_iff_lt_mul hpos).mp (Nat.lt_succ_self _)
  refine Nat.lt_of_mul_lt_mul_right (a := convictionQOne ^ 2) ?_
  calc totalPower votes now ^ 2 * convictionQOne ^ 2
      = (totalPower votes now * convictionQOne) ^ 2 := (Nat.mul_pow ..).symm
    _ < ((powerCap votes now + 1) * root) ^ 2 := Nat.pow_lt_pow_left hlt two_ne_zero
    _ = (powerCap votes now + 1) ^ 2 * root ^ 2 := Nat.mul_pow ..
    _ ≤ (powerCap votes now + 1) ^ 2 * (votes.length * convictionQOne ^ 2) :=
      Nat.mul_le_mul_left _ hroot
    _ = votes.length * (powerCap votes now + 1) ^ 2 * convictionQOne ^ 2 := by ring

/-- Roots add up: from `√n c ≤ a` and `√n ≤ e` follows `√n (c + 1) ≤ a + e`. -/
theorem mul_succ_sq_le {n c a e : ℕ} (ha : n * c ^ 2 ≤ a ^ 2) (he : n ≤ e ^ 2) :
    n * (c + 1) ^ 2 ≤ (a + e) ^ 2 := by
  have hprod : n * c ≤ a * e := by
    refine (Nat.pow_le_pow_iff_left two_ne_zero).mp ?_
    calc (n * c) ^ 2 = n * c ^ 2 * n := by ring
      _ ≤ a ^ 2 * e ^ 2 := Nat.mul_le_mul ha he
      _ = (a * e) ^ 2 := (Nat.mul_pow ..).symm
  calc n * (c + 1) ^ 2 = n * c ^ 2 + 2 * (n * c) + n := by ring
    _ ≤ a ^ 2 + 2 * (a * e) + e ^ 2 := by omega
    _ = (a + e) ^ 2 := by ring

/-- If the share is bounded after a cut, less than the root of the number of votes was cut off. -/
theorem excess_sq_lt (hcount : 2 ≤ votes.length)
    (hfits : totalPower votes now * convictionQOne ≤ U128.max)
    (hcut : votes.length * powerCap votes now ^ 2 ≤ (totalPower votes now - excess votes now) ^ 2) :
    excess votes now ^ 2 < votes.length := by
  have hlt := totalPower_sq_lt hcount hfits
  have hsum := sum_countedPower_add_excess votes now
  by_contra hcon
  have hle := mul_succ_sq_le hcut (Nat.not_lt.mp hcon)
  rw [Nat.sub_add_cancel (by omega)] at hle
  exact absurd hlt (Nat.not_lt.mpr hle)

theorem excess_eq_zero_iff : excess votes now = 0 ↔
    ∀ v ∈ votes, voterPower now v ≤ powerCap votes now := by
  unfold excess
  simp [List.sum_eq_zero_iff, Nat.sub_eq_zero_iff_le]

end Powers

/-- The share of a voter is bounded exactly if it is so before the cut, or, by the rounding of the
cap, if something less than the root of the number of votes is cut off. -/
theorem shareBounded_iff {p : Proposal} {now : F64} {tally : VoteTally}
    (hcount : 2 ≤ p.votes.length) (htally : tallyVotes p now = some tally) :
    ShareBounded p.votes now tally ↔
      (∀ v ∈ p.votes, p.votes.length * voterPower now v ^ 2 ≤ totalPower p.votes now ^ 2) ∨
      (0 < excess p.votes now ∧ excess p.votes now ^ 2 < p.votes.length ∧
        p.votes.length * powerCap p.votes now ^ 2 ≤
          (totalPower p.votes now - excess p.votes now) ^ 2) := by
  have hne : p.votes ≠ [] := List.ne_nil_of_length_pos (by omega)
  obtain ⟨htotal, hstakes⟩ := tallyVotes_total hne htally
  have hfits : totalPower p.votes now * convictionQOne ≤ U128.max :=
    (Nat.mul_le_mul_right _ ((totalPower_le now p.votes).trans
      (Nat.mul_le_mul_right _ hstakes))).trans (by decide)
  have hcounted : tally.total = totalPower p.votes now - excess p.votes now := by
    have hsum := sum_countedPower_add_excess p.votes now
    omega
  unfold ShareBounded
  rw [hcounted]
  constructor
  · intro hbounded
    rcases Nat.eq_zero_or_pos (excess p.votes now) with hzero | hpos
    · -- nothing is cut
      left
      intro v hv
      have hshare := hbounded v hv
      rwa [hzero, Nat.sub_zero, countedPower,
        min_eq_left (excess_eq_zero_iff.mp hzero v hv)] at hshare
    · right
      have hsome : ¬ ∀ v ∈ p.votes, voterPower now v ≤ powerCap p.votes now :=
        fun hall => hpos.ne' (excess_eq_zero_iff.mpr hall)
      push Not at hsome
      obtain ⟨v, hv, hlt⟩ := hsome
      have hshare := hbounded v hv
      rw [countedPower, min_eq_right hlt.le] at hshare
      exact ⟨hpos, excess_sq_lt hcount hfits hshare, hshare⟩
  · rintro (hbefore | ⟨-, -, hcut⟩) v hv
    · have hzero : excess p.votes now = 0 :=
        excess_eq_zero_iff.mpr fun w hw => le_powerCap hcount hfits (hbefore w hw)
      rw [hzero, Nat.sub_zero, countedPower, min_eq_left (excess_eq_zero_iff.mp hzero v hv)]
      exact hbefore v hv
    · refine le_trans (Nat.mul_le_mul_left _ ?_) hcut
      exact Nat.pow_le_pow_left (min_le_right _ _) 2

/-! ### A large voter and a small one -/

/-- A vote with a stake, from the start of time. -/
def earlyVote (voter : Str) (stake : ℕ) (direction : VoteDirection) : Vote :=
  ⟨voter, stake, direction, F64.zero, none⟩

def votedProposal (votes : List Vote) : Proposal :=
  ⟨.text "p", .text "o", .parameter, .text "t", .text "d", F64.zero, F64.zero, .active, none, votes,
    none⟩

def yearLater : F64 := F64.ofNat 31536000

/-- Two voters with the same stake. -/
def evenVotes : List Vote := [earlyVote (.text "x") 100 .isFor, earlyVote (.text "y") 100 .against]

/-- Each has half the tally. -/
theorem shareBounded_iff_even :
    (2 ≤ evenVotes.length ∧ tallyVotes (votedProposal evenVotes) yearLater =
      some ⟨10000000000, 10000000000, 0, 2, 200⟩) ∧
    ShareBounded evenVotes yearLater ⟨10000000000, 10000000000, 0, 2, 200⟩ :=
  ⟨by decide +kernel, (shareBounded_iff (p := votedProposal evenVotes) (by decide)
    (by decide +kernel)).mpr (.inl (by decide +kernel))⟩

/-- A voter with a hundred times the stake of the other. -/
def unevenVotes : List Vote := [earlyVote (.text "x") 100 .isFor, earlyVote (.text "y") 1 .against]

/-- The power of the large voter is cut, and still more than one part in `√2` of what is left. -/
theorem large_voter_over_share :
    tallyVotes (votedProposal unevenVotes) yearLater =
      some ⟨7778174595, 1000000000, 0, 2, 101⟩ ∧
    ¬ ShareBounded unevenVotes yearLater ⟨7778174595, 1000000000, 0, 2, 101⟩ := by
  unfold ShareBounded
  decide +kernel

end ElaraMesh.Governance
