import ElaraMesh.Consensus.Order

/-!
# The diverse test and the raw test

The diverse test discounts the stake of witnesses that look alike, so that what passes it should
pass the raw test.  The discounted stake is summed up with saturation in 128 bits; the raw stake
is summed up in 64 bits, and the program stops if that overflows.  So the raw test gives no answer
on a record whose stakes are too large.

## Main results

* `effectiveStakeQ_le` — a discount never adds stake.
* `diverseStronger_iff` — the diverse test is the stronger one exactly as long as the sum of the
  stakes fits.
-/

namespace ElaraMesh.Consensus

open Record (Str)
open Smt (Sha3)
open AWCConsensus

namespace AWCConsensus

/-- The raw test, with the sum of the stakes in 64 bits; no answer if the sum overflows. -/
def isSettledChecked [Sha3] (s : AWCConsensus) (recordId : Str) : Option Bool :=
  if s.eligibleStake recordId = 0 then some false
  else (U64.checkedSum ((s.attestationsOf recordId).map Attestation.stake)).map fun attesting =>
    twoThirdsMet attesting (s.eligibleStake recordId)

/-- The same engine, with the attestations of a record as given. -/
def reordered (s : AWCConsensus) (recordId : Str) (atts : List Attestation) : AWCConsensus :=
  { s with attestations := s.attestations.insert recordId atts }

end AWCConsensus

/-- All stakes are numbers of 64 bits. -/
structure Typed [Sha3] (s : AWCConsensus) (r : Str) : Prop where
  stakes : ∀ a ∈ s.attestationsOf r, a.stake ≤ U64.max
  eligible : s.eligibleStake r ≤ U64.max

/-- For records with this much stake attesting: the order of the attestations does not matter to
the diverse test, and what passes it passes the raw test. -/
def DiverseStronger [Sha3] (total : ℕ) : Prop :=
  ∀ (s : AWCConsensus) (r : Str), Typed s r → s.attestingStake r = total →
    (∀ atts, (s.attestationsOf r).Perm atts →
      (s.reordered r atts).isSettledDiverse r = s.isSettledDiverse r) ∧
    (s.isSettledDiverse r = true → s.isSettledChecked r = some true)

section Tests

variable [Sha3] {s : AWCConsensus} {r : Str}

/-! ### The order of the attestations -/

omit [Sha3] in
@[simp] theorem attestationsOf_reordered (s : AWCConsensus) (r : Str) (atts : List Attestation) :
    (s.reordered r atts).attestationsOf r = atts := by
  simp [attestationsOf, reordered, Table.getD_insert]

theorem isSettledDiverse_reordered {atts : List Attestation}
    (hperm : (s.attestationsOf r).Perm atts) :
    (s.reordered r atts).isSettledDiverse r = s.isSettledDiverse r := by
  have hsetup : SameSetup (s.reordered r atts) s :=
    ⟨rfl, rfl, rfl, rfl, rfl, rfl, rfl, rfl, rfl, rfl, rfl, rfl⟩
  have heligible : (s.reordered r atts).eligibleStake r = s.eligibleStake r := rfl
  have hnil : atts = [] ↔ s.attestationsOf r = [] := by
    rw [← List.length_eq_zero_iff, ← hperm.length_eq, List.length_eq_zero_iff]
  unfold isSettledDiverse
  simp only [heligible, attestationsOf_reordered, hnil,
    effectiveStakeQ_perm hsetup (hperm.symm.map fun a => (a.witnessHash, a.stake))]

/-! ### The discount -/

omit [Sha3] in
/-- At most the whole stake of a witness counts. -/
theorem independenceQ_le (s : AWCConsensus) (witness : Str) (witnessSet : List Str) (gamma : ℕ) :
    s.independenceQ witness witnessSet gamma ≤ settlementQ := by
  refine Nat.div_le_of_le_mul ?_
  exact Nat.mul_le_mul_right _ (Nat.le_add_right _ _)

omit [Sha3] in
/-- A discount never adds stake. -/
theorem effectiveStakeQ_le (s : AWCConsensus) (witnesses : List (Str × ℕ)) :
    s.effectiveStakeQ witnesses ≤ (witnesses.map Prod.snd).sum * settlementQ := by
  rw [effectiveStakeQ_eq, ← List.sum_map_mul_right]
  refine (Nat.min_le_left _ _).trans ?_
  refine List.sum_le_sum fun w _ => ?_
  exact (Nat.min_le_left _ _).trans (Nat.mul_le_mul_left _ (independenceQ_le ..))

variable {witnesses : List (Str × ℕ)}

omit [Sha3] in
/-- Witnesses that have nothing in common count with their whole stake. -/
theorem effectiveStakeQ_uncorrelated (s : AWCConsensus)
    (h : ∀ v ∈ witnesses, ∀ w ∈ witnesses, v.1 ≠ w.1 →
      ∀ gamma, s.correlationWeightedQ v.1 w.1 gamma = 0) :
    s.effectiveStakeQ witnesses = min ((witnesses.map Prod.snd).sum * settlementQ) U128.max := by
  have hwhole : ∀ v ∈ witnesses, ∀ gamma,
      s.independenceQ v.1 (witnesses.map Prod.fst) gamma = settlementQ := by
    intro v hv gamma
    have hnothing : (((witnesses.map Prod.fst).filter (· ≠ v.1)).map fun m =>
        s.correlationWeightedQ v.1 m gamma).sum = 0 := by
      refine List.sum_eq_zero fun c hc => ?_
      obtain ⟨m, hm, rfl⟩ := List.mem_map.mp hc
      obtain ⟨hmem, hne⟩ := List.mem_filter.mp hm
      obtain ⟨w, hw, rfl⟩ := List.mem_map.mp hmem
      exact h v hv w hw (Ne.symm (of_decide_eq_true hne)) gamma
    rw [independenceQ_eq, hnothing]
    exact Nat.mul_div_cancel _ (by decide)
  have hsum := U128.min_sum_min (witnesses.map fun w => w.2 * settlementQ)
  rw [List.map_map] at hsum
  rw [effectiveStakeQ_eq, List.map_congr_left fun w hw => by rw [hwhole w hw],
    ← List.sum_map_mul_right]
  exact hsum

omit [Sha3] in
/-- The diverse test in exact numbers: the attesting stake is two thirds of the eligible one. -/
theorem two_thirds_of_met {eligible : ℕ} (heligible : eligible ≤ U64.max)
    (hmet : diverseThresholdMetQ (s.effectiveStakeQ witnesses) eligible = true) :
    2 * eligible ≤ 3 * (witnesses.map Prod.snd).sum := by
  have hle := effectiveStakeQ_le s witnesses
  have hmet := of_decide_eq_true hmet
  unfold U128.satMul U128.max settlementQ at hmet
  unfold U64.max at heligible
  unfold settlementQ at hle
  omega

omit [Sha3] in
/-- If nothing is discounted, two thirds are enough. -/
theorem met_of_two_thirds {eligible : ℕ} (heligible : eligible ≤ U64.max)
    (heff : s.effectiveStakeQ witnesses =
      min ((witnesses.map Prod.snd).sum * settlementQ) U128.max)
    (h : 2 * eligible ≤ 3 * (witnesses.map Prod.snd).sum) :
    diverseThresholdMetQ (s.effectiveStakeQ witnesses) eligible = true := by
  unfold diverseThresholdMetQ U128.satMul
  rw [heff, decide_eq_true_iff]
  unfold U64.max at heligible
  unfold settlementQ U128.max
  omega

theorem quorum_of_diverse (h : Typed s r) (hdiverse : s.isSettledDiverse r = true) :
    0 < s.eligibleStake r ∧ 2 * s.eligibleStake r ≤ 3 * s.attestingStake r := by
  unfold isSettledDiverse at hdiverse
  split at hdiverse
  · cases hdiverse
  · next hpos =>
    refine ⟨Nat.pos_of_ne_zero hpos, ?_⟩
    dsimp only at hdiverse
    split at hdiverse
    · cases hdiverse
    · have hquorum := two_thirds_of_met h.eligible hdiverse
      rw [List.map_map] at hquorum
      exact hquorum

/-- As long as the sum fits, the raw test passes. -/
theorem checked_of_quorum (hpos : 0 < s.eligibleStake r)
    (hquorum : 2 * s.eligibleStake r ≤ 3 * s.attestingStake r)
    (hfits : s.attestingStake r ≤ U64.max) : s.isSettledChecked r = some true := by
  unfold isSettledChecked
  rw [if_neg hpos.ne', U64.checkedSum_eq_some.mpr ⟨rfl, hfits⟩, Option.map_some]
  refine congrArg some (decide_eq_true ?_)
  unfold U64.satMul
  unfold attestingStake at hquorum
  omega

/-! ### Too much stake -/

/-- Attestations of one witness with this much stake in parts that fit 64 bits. -/
def parts (r w : Str) (total : ℕ) : List Attestation :=
  (List.replicate (total / U64.max) U64.max ++ [total % U64.max]).map fun stake =>
    ⟨r, w, stake, F64.zero⟩

/-- An engine with one zone and one attested record. -/
def loneRecord (r : Str) (eligible : ℕ) (atts : List Attestation) : AWCConsensus :=
  { AWCConsensus.new with
    zoneCount := 1
    zoneStakes := AList.insert (zoneFromLegacy 0) eligible ∅
    attestations := AList.insert r atts ∅ }

omit [Sha3] in
theorem attestationsOf_loneRecord (r : Str) (eligible : ℕ) (atts : List Attestation) :
    (loneRecord r eligible atts).attestationsOf r = atts :=
  (Table.getD_insert _ _ _ _ _).trans (if_pos rfl)

theorem eligibleStake_loneRecord (r : Str) (eligible : ℕ) (atts : List Attestation) :
    (loneRecord r eligible atts).eligibleStake r = eligible := by
  have hzone : (loneRecord r eligible atts).settlementZoneFor r = zoneFromLegacy 0 :=
    settlementZoneFor_oneZone rfl rfl r
  have hstake : (loneRecord r eligible atts).zoneStakes.getD (zoneFromLegacy 0) 0 = eligible :=
    (Table.getD_insert _ _ _ _ _).trans (if_pos rfl)
  unfold eligibleStake
  rw [hzone]
  exact hstake

omit [Sha3] in
theorem sum_parts (r w : Str) (total : ℕ) :
    ((parts r w total).map Attestation.stake).sum = total := by
  unfold parts
  rw [List.map_map]
  simp only [Function.comp_def, List.map_id', List.sum_append, List.sum_replicate_nat,
    List.sum_singleton]
  exact Nat.div_add_mod' total U64.max

omit [Sha3] in
theorem stake_le_of_mem_parts {r w : Str} {total : ℕ} {a : Attestation} (h : a ∈ parts r w total) :
    a.witnessHash = w ∧ a.stake ≤ U64.max := by
  obtain ⟨stake, hstake, rfl⟩ := List.mem_map.mp h
  refine ⟨rfl, ?_⟩
  rcases List.mem_append.mp hstake with hstake | hstake
  · exact (List.eq_of_mem_replicate hstake).le
  · rw [List.mem_singleton.mp hstake]
    exact (Nat.mod_lt _ (by decide)).le

/-- A record with so much stake that the sum overflows. -/
theorem not_diverseStronger {total : ℕ} (hover : U64.max < total) : ¬ DiverseStronger total := by
  intro hstronger
  let r : Str := Str.text "r"
  let s := loneRecord r (2 ^ 63) (parts r (Str.text "w") total)
  have hatts : s.attestationsOf r = parts r (Str.text "w") total := attestationsOf_loneRecord ..
  have heligible : s.eligibleStake r = 2 ^ 63 := eligibleStake_loneRecord ..
  have htotal : s.attestingStake r = total := by
    unfold attestingStake
    rw [hatts, sum_parts]
  have htyped : Typed s r := by
    refine ⟨fun a ha => (stake_le_of_mem_parts (hatts ▸ ha)).2, ?_⟩
    rw [heligible]
    decide
  have hdiverse : s.isSettledDiverse r = true := by
    have halone : ∀ e ∈ (s.attestationsOf r).map fun a => (a.witnessHash, a.stake),
        e.1 = Str.text "w" := by
      intro e he
      obtain ⟨a, ha, rfl⟩ := List.mem_map.mp he
      exact (stake_le_of_mem_parts (hatts ▸ ha)).1
    have hsum : (((s.attestationsOf r).map fun a => (a.witnessHash, a.stake)).map Prod.snd).sum =
        total := by
      rw [List.map_map]
      exact htotal
    have hne : s.attestationsOf r ≠ [] := by
      rw [hatts]
      simp [parts]
    unfold isSettledDiverse
    dsimp only
    rw [heligible, if_neg (by decide), if_neg hne]
    refine met_of_two_thirds (by decide) (effectiveStakeQ_uncorrelated s ?_) ?_
    · intro v hv w hw hvw
      exact absurd ((halone v hv).trans (halone w hw).symm) hvw
    · rw [hsum]
      unfold U64.max at hover
      omega
  have hraw := (hstronger s r htyped htotal).2 hdiverse
  have hover : U64.checkedSum ((s.attestationsOf r).map Attestation.stake) = none :=
    if_neg (Nat.not_le.mpr (lt_of_lt_of_eq hover htotal.symm))
  unfold isSettledChecked at hraw
  rw [heligible, if_neg (by decide), hover] at hraw
  cases hraw

/-- The diverse test is the stronger one exactly as long as the sum of the stakes fits 64 bits. -/
theorem diverseStronger_iff (total : ℕ) : DiverseStronger total ↔ total ≤ U64.max := by
  constructor
  · intro h
    by_contra hcon
    exact not_diverseStronger (Nat.not_le.mp hcon) h
  · rintro hfits s r htyped rfl
    refine ⟨fun atts hperm => isSettledDiverse_reordered hperm, fun hdiverse => ?_⟩
    obtain ⟨hpos, hquorum⟩ := quorum_of_diverse htyped hdiverse
    exact checked_of_quorum hpos hquorum hfits

end Tests

section Fixed

attribute [local instance] Smt.guardedSha3

/-- Two witnesses whose stakes add up to `2 ^ 64`, where three units are to be settled. -/
def heavyPair : AWCConsensus :=
  loneRecord (Str.text "r") 3 [⟨Str.text "r", Str.text "x", 2 ^ 63, F64.zero⟩,
    ⟨Str.text "r", Str.text "y", 2 ^ 63, F64.zero⟩]

/-- The sum overflows: the record passes the diverse test, and the raw one stops. -/
theorem heavyPair_settled : (∀ a ∈ heavyPair.attestationsOf (Str.text "r"), a.stake ≤ U64.max) ∧
    heavyPair.isSettledDiverse (Str.text "r") = true ∧
    heavyPair.isSettledChecked (Str.text "r") = none := by
  decide +kernel

end Fixed

end ElaraMesh.Consensus
