import ElaraMesh.Consensus.Order

/-!
# Records that wait for their parents

A record all of whose parents in other zones are final needs one cluster of witnesses only.
A parent that becomes final makes the engine recompute its children, so that none is left
behind.  The members of a settled seal become final without that, and so do anchored records.

## Main results

* `Covered.step`, `Covered.run` — what one step preserves, and a run.
* `ready_final` — after a run of quiet steps every ready record is final.
-/

namespace ElaraMesh.Consensus

open Record (Str ZoneId)
open Smt (Sha3)
open AWCConsensus

/-! ### What the tests of a record read -/

namespace AWCConsensus

section Ready

variable [Sha3]

/-- The record has enough witnesses, a cluster and the stake. -/
def Supported (s : AWCConsensus) (r : Str) : Prop :=
  confirmedMinWitnesses ≤ (s.attestationsOf r).length ∧ s.settlementOk r = true ∧
    1 ≤ s.countDistinctClusters (s.attestationsOf r)

/-- The record is supported, it has parents in other zones, and they are final. -/
def Ready (s : AWCConsensus) (r : Str) : Prop :=
  s.Supported r ∧ s.crossZoneParentsFinalized r = true

instance (s : AWCConsensus) (r : Str) : Decidable (s.Supported r) :=
  inferInstanceAs (Decidable (_ ∧ _ ∧ _))

instance (s : AWCConsensus) (r : Str) : Decidable (s.Ready r) :=
  inferInstanceAs (Decidable (_ ∧ _))

theorem Supported.attestations_ne_nil {s : AWCConsensus} {r : Str} (h : s.Supported r) :
    s.attestationsOf r ≠ [] := by
  intro hnone
  have hwitnesses := h.1
  rw [hnone] at hwitnesses
  exact absurd hwitnesses (by decide)

theorem Ready.confirms {s : AWCConsensus} {r : Str} (h : s.Ready r) : s.confirms r = true := by
  obtain ⟨⟨hwitnesses, hsettled, hclusters⟩, hparents⟩ := h
  unfold AWCConsensus.confirms
  simp only [hparents, if_true, hsettled, Bool.and_true, Bool.and_eq_true, decide_eq_true_eq]
  exact ⟨hwitnesses, hclusters⟩

end Ready

theorem crossZoneParentsFinalized_iff {s : AWCConsensus} {r : Str} :
    s.crossZoneParentsFinalized r = true ↔ (∃ p, s.Parent p r) ∧ ∀ p, s.Parent p r → s.Final p := by
  unfold crossZoneParentsFinalized Final Parent
  cases s.crossZoneParents.lookup r with
  | none => simp
  | some parents => simp [List.eq_nil_iff_forall_not_mem]

end AWCConsensus

/-- The engines agree on what the tests of a record read, but for the levels. -/
structure SameTests [Sha3] (q : Str) (s t : AWCConsensus) : Prop where
  zoneCount : s.zoneCount = t.zoneCount
  rotationZoneOverrides : s.rotationZoneOverrides = t.rotationZoneOverrides
  committeeStakes : s.committeeStakes = t.committeeStakes
  committeeMembers : s.committeeMembers = t.committeeMembers
  decayed : s.decayedZoneStake = t.decayedZoneStake
  profiles : s.profiles = t.profiles
  derivedGeo : s.derivedGeo = t.derivedGeo
  creatorStake : s.creatorStakes.getD q 0 = t.creatorStakes.getD q 0
  creatorIdentity : s.creatorIdentity.lookup q = t.creatorIdentity.lookup q
  attestations : s.attestationsOf q = t.attestationsOf q
  parents : s.crossZoneParents.lookup q = t.crossZoneParents.lookup q

namespace SameTests

variable [Sha3] {q : Str} {s t u : AWCConsensus}

theorem refl (q : Str) (s : AWCConsensus) : SameTests q s s :=
  ⟨rfl, rfl, rfl, rfl, rfl, rfl, rfl, rfl, rfl, rfl, rfl⟩

theorem trans (h : SameTests q s t) (h' : SameTests q t u) : SameTests q s u :=
  ⟨h.1.trans h'.1, h.2.trans h'.2, h.3.trans h'.3, h.4.trans h'.4, h.5.trans h'.5,
    h.6.trans h'.6, h.7.trans h'.7, h.8.trans h'.8, h.9.trans h'.9, h.10.trans h'.10,
    h.11.trans h'.11⟩

theorem eligibleStake_eq (h : SameTests q s t) : s.eligibleStake q = t.eligibleStake q := by
  have hzone : s.settlementZoneFor q = t.settlementZoneFor q := by
    unfold settlementZoneFor zoneForRecord
    rw [h.rotationZoneOverrides, h.zoneCount]
  unfold eligibleStake settlementDenominator creatorStakeExcludedFromDenominator
  dsimp only
  rw [hzone, h.committeeStakes, h.committeeMembers, h.creatorStake, h.creatorIdentity, h.decayed]

theorem effectiveStakeQ_eq (h : SameTests q s t) : s.effectiveStakeQ = t.effectiveStakeQ := by
  have hcorr : s.correlationWeightedQ = t.correlationWeightedQ := by
    funext a b g
    unfold correlationWeightedQ
    rw [h.profiles, h.derivedGeo]
  have hbucket : s.bucketOf = t.bucketOf := by
    funext w
    unfold bucketOf
    rw [h.profiles, h.derivedGeo]
  funext witnesses
  unfold effectiveStakeQ gammaEffectiveQ bucketCount independenceQ
  rw [hcorr, hbucket]

theorem supported_iff (h : SameTests q s t) : s.Supported q ↔ t.Supported q := by
  have hprofile : s.sameProfile = t.sameProfile := by
    funext a b
    unfold sameProfile
    rw [h.profiles]
  have hsettled : s.settlementOk q = t.settlementOk q := by
    unfold settlementOk isSettledDiverse isSettled attestingStake smallNetwork
    dsimp only
    rw [h.eligibleStake_eq, h.attestations, h.effectiveStakeQ_eq, h.profiles]
  unfold Supported countDistinctClusters
  rw [h.attestations, hsettled, hprofile]

end SameTests

/-! ### Calls that leave the tests alone -/

/-- All that the tests of all records read, but for the levels. -/
structure TestData where
  zoneCount : ℕ
  rotationZoneOverrides : Table Str Str
  committeeStakes : Table ZoneId ℕ
  committeeMembers : Table ZoneId (Finset Str)
  decayed : ZoneId → ℕ
  profiles : Table Str WitnessProfile
  derivedGeo : Table Str DerivedWitnessGeo
  creatorStakes : Table Str ℕ
  creatorIdentity : Table Str Str
  attestations : Table Str (List Attestation)
  crossZoneParents : Table Str (List Str)

namespace AWCConsensus

def testData (s : AWCConsensus) : TestData :=
  ⟨s.zoneCount, s.rotationZoneOverrides, s.committeeStakes, s.committeeMembers, s.decayedZoneStake,
    s.profiles, s.derivedGeo, s.creatorStakes, s.creatorIdentity, s.attestations, s.crossZoneParents⟩

end AWCConsensus

theorem SameTests.of_testData [Sha3] {s t : AWCConsensus} (h : t.testData = s.testData) (q : Str) :
    SameTests q s t := by
  unfold testData at h
  injection h with h₁ h₂ h₃ h₄ h₅ h₆ h₇ h₈ h₉ h₁₀ h₁₁
  refine ⟨h₁.symm, h₂.symm, h₃.symm, h₄.symm, h₅.symm, h₆.symm, h₇.symm, ?_, ?_, ?_, ?_⟩
  · rw [h₈]
  · rw [h₉]
  · unfold attestationsOf
    rw [h₁₀]
  · rw [h₁₁]

namespace AWCConsensus

theorem testData_foldl {ι : Type} {f : AWCConsensus → ι → AWCConsensus}
    (hf : ∀ (s : AWCConsensus) i, (f s i).testData = s.testData) (is : List ι) (s : AWCConsensus) :
    (is.foldl f s).testData = s.testData :=
  List.foldlRecOn is f (motive := fun t => t.testData = s.testData) rfl
    fun t ht i _ => (hf t i).trans ht

variable (s : AWCConsensus)

theorem testData_enqueueFinalized (r : Str) : (s.enqueueFinalized r).testData = s.testData := by
  unfold enqueueFinalized
  split <;> rfl

theorem testData_announce (sup : Bool) (r : Str) (old level : ConfirmationLevel) :
    (s.announce sup r old level).testData = s.testData := by
  have hsealed : (s.announceSealed sup r old level).testData = s.testData := by
    unfold announceSealed enqueueSealed
    split
    · split <;> rfl
    · rfl
  unfold announce
  dsimp only
  split
  · exact (testData_enqueueFinalized _ r).trans hsealed
  · exact hsealed

theorem testData_promoteSealMembers (rs : List Str) :
    (s.promoteSealMembers rs).testData = s.testData := by
  refine testData_foldl (fun t r => ?_) rs s
  unfold promoteMember
  split
  · rfl
  · exact testData_enqueueFinalized _ r

theorem testData_registerSealRecords (sealId : Str) (rs : List Str) :
    (s.registerSealRecords sealId rs).testData = s.testData := by
  have hsealed : (rs.foldl (sealRecord sealId) s).testData = s.testData := by
    refine testData_foldl (fun t r => ?_) rs s
    unfold sealRecord
    dsimp only
    split <;> rfl
  unfold registerSealRecords
  dsimp only
  split
  · exact (testData_promoteSealMembers _ rs).trans hsealed
  · exact hsealed

theorem testData_admitSealAttestation (a : SealAttestation) (now : F64) :
    (s.admitSealAttestation a now).testData = s.testData := by
  unfold admitSealAttestation
  dsimp only
  split
  · rfl
  split
  · rfl
  split
  · split
    · exact testData_promoteSealMembers _ _
    · rfl
  · rfl

theorem testData_addSealAttestation [Iteration] (a : SealAttestation) (now : F64) :
    (s.addSealAttestation a now).testData = s.testData := by
  unfold addSealAttestation
  dsimp only
  split
  · refine (testData_admitSealAttestation _ a now).trans ?_
    unfold evictOldestSealAttestations
    exact testData_foldl (fun t e => by rfl) _ _
  · exact testData_admitSealAttestation _ a now

theorem testData_promoteAnchored [Iteration] (now : F64) :
    (s.promoteAnchored now).testData = s.testData := by
  refine testData_foldl (fun t sealId => ?_) _ s
  refine testData_foldl (f := anchorMember) (fun u r => ?_) (t.sealRecordIds.getD sealId []) t
  unfold anchorMember
  split <;> rfl

theorem testData_visit [Sha3] [Iteration] (sup : Bool) (r : Str) :
    (s.visit sup r).1.testData = s.testData := by
  unfold visit
  split
  · rfl
  split
  · rfl
  refine (testData_announce _ sup r _ _).trans ?_
  unfold countBoost
  split <;> rfl

end AWCConsensus

theorem sameTests_registerCrossZoneParents [Sha3] (s : AWCConsensus) {q r : Str} (h : q ≠ r)
    (parents : List Str) : SameTests q s (s.registerCrossZoneParents r parents) := by
  unfold registerCrossZoneParents
  split
  · exact SameTests.refl q s
  · have hlookup : s.crossZoneParents.lookup q = (s.crossZoneParents.insert r parents).lookup q := by
      rw [Table.lookup_insert_eq, if_neg h]
    exact ⟨rfl, rfl, rfl, rfl, rfl, rfl, rfl, rfl, rfl, rfl, hlookup⟩

/-! ### Quiet steps -/

namespace AWCConsensus

section Quiet

variable [Sha3]

/-- No child of the record waits for it: those that are supported are final. -/
def NoneWaits (s : AWCConsensus) (p : Str) : Prop :=
  ∀ q, s.Parent p q → s.Supported q → s.Final q

/-- The attestations carry the stakes of their witnesses. -/
def FixedStakes (stakeOf : Str → ℕ) (s : AWCConsensus) : Prop :=
  ∀ r, ∀ a ∈ s.attestationsOf r, a.stake = stakeOf a.witnessHash

/-- Calls with fixed stakes and profiles, which register the parents of a record before its
attestations. -/
def Allowed (stakeOf : Str → ℕ) (s : AWCConsensus) : Call → Prop
  | .addAttestation a => a.stake = stakeOf a.witnessHash
  | .registerCrossZoneParents r _ => s.attestationsOf r = []
  | .registerProfile _ _ => False
  | _ => True

/-- A record that becomes final in a call without a task has no child that waits for it.  As
silent stake comes back to life, no record becomes supported but those to recompute. -/
def Quiet [Iteration] (s : AWCConsensus) : Call → Prop
  | .addAttestation a =>
    s.livenessDecayEnabled = true → ∀ q, .recompute q false ∉ (s.addAttestation a).2 →
      (s.addAttestation a).1.Supported q → s.Supported q
  | c => ∀ p, ¬ s.Final p → (s.start c).1.Final p → s.NoneWaits p

end Quiet

end AWCConsensus

/-- The attestations carry fixed stakes, and every ready record is final or about to be
recomputed. -/
structure Covered [Sha3] (stakeOf : Str → ℕ) (c : Config) : Prop where
  stakes : c.state.FixedStakes stakeOf
  ready : ∀ r, c.state.Ready r → c.state.Final r ∨ ∃ sup, .recompute r sup ∈ c.agenda

/-! ### Steps without a new attestation -/

section Promoted

variable [Sha3] {s t : AWCConsensus} {stakeOf : Str → ℕ}

/-- A record that is ready now was ready, or one of its parents became final. -/
theorem ready_or_raised {r : Str} (hsame : SameTests r s t) (h : t.Ready r) :
    s.Ready r ∨ (s.Supported r ∧ ∃ p, s.Parent p r ∧ ¬ s.Final p ∧ t.Final p) := by
  obtain ⟨hsupported, hparents⟩ := h
  obtain ⟨⟨p₀, hp₀⟩, hall⟩ := crossZoneParentsFinalized_iff.mp hparents
  have hparent : ∀ p, t.Parent p r ↔ s.Parent p r := by
    intro p
    unfold Parent
    rw [hsame.parents]
  by_cases hbefore : ∀ p, s.Parent p r → s.Final p
  · exact Or.inl ⟨hsame.supported_iff.mpr hsupported,
      crossZoneParentsFinalized_iff.mpr ⟨⟨p₀, (hparent p₀).mp hp₀⟩, hbefore⟩⟩
  · push Not at hbefore
    obtain ⟨p, hp, hold⟩ := hbefore
    exact Or.inr ⟨hsame.supported_iff.mpr hsupported, p, hp, hold, hall p ((hparent p).mpr hp)⟩

theorem fixedStakes_of_testData (h : t.testData = s.testData) (hs : s.FixedStakes stakeOf) :
    t.FixedStakes stakeOf := by
  intro r a ha
  refine hs r a ?_
  rwa [(SameTests.of_testData h r).attestations]

/-- A call that only promotes, and that leaves no child behind. -/
theorem Covered.promoted (h : Covered stakeOf ⟨s, []⟩) (hdata : t.testData = s.testData)
    (hpromotes : s.Promotes t) (hquiet : ∀ p, ¬ s.Final p → t.Final p → s.NoneWaits p) :
    Covered stakeOf ⟨t, []⟩ := by
  refine ⟨fixedStakes_of_testData hdata h.stakes, fun r hr => Or.inl (hpromotes.final ?_)⟩
  rcases ready_or_raised (SameTests.of_testData hdata r) hr with hready | hraised
  · rcases h.ready r hready with hfinal | ⟨sup, hmem⟩
    · exact hfinal
    · cases hmem
  · obtain ⟨hsupported, p, hp, hold, hnew⟩ := hraised
    exact hquiet p hold hnew r hp hsupported

theorem Covered.registerCrossZoneParents {r : Str} {parents : List Str}
    (h : Covered stakeOf ⟨s, []⟩) (hnone : s.attestationsOf r = []) :
    Covered stakeOf ⟨s.registerCrossZoneParents r parents, []⟩ := by
  have hatts : ∀ q, (s.registerCrossZoneParents r parents).attestationsOf q = s.attestationsOf q := by
    intro q
    unfold AWCConsensus.registerCrossZoneParents
    split <;> rfl
  have hfinal : ∀ q, (s.registerCrossZoneParents r parents).Final q ↔ s.Final q := by
    intro q
    unfold AWCConsensus.registerCrossZoneParents
    split <;> rfl
  refine ⟨fun q a ha => h.stakes q a (hatts q ▸ ha), fun q hq => ?_⟩
  by_cases hqr : q = r
  · refine absurd ?_ hq.1.attestations_ne_nil
    rw [hqr, hatts, hnone]
  · have hsame := sameTests_registerCrossZoneParents s hqr parents
    rcases ready_or_raised hsame hq with hready | ⟨_, p, _, hold, hnew⟩
    · exact (h.ready q hready).imp_left (hfinal q).mpr
    · exact absurd ((hfinal p).mp hnew) hold

end Promoted

/-! ### Tasks -/

section Tasks

variable [Sha3] [Iteration] {s : AWCConsensus} {stakeOf : Str → ℕ}

variable {r : Str}

/-- A record that is ready after its recomputation is final: if it did not become final
itself, its parents were final before. -/
theorem final_of_ready_visit {sup : Bool} (h : (s.visit sup r).1.Ready r) :
    (s.visit sup r).1.Final r := by
  by_contra hnot
  have hsame := SameTests.of_testData (s.testData_visit sup r) r
  rcases ready_or_raised hsame h with hready | ⟨_, p, _, hold, hnew⟩
  · refine hnot ?_
    unfold Final
    rw [confirmationLevel_visit, if_pos rfl, recomputedLevel, if_neg hready.1.attestations_ne_nil]
    split
    · rfl
    · rw [evaluatedLevel, if_pos hready.confirms]
      rfl
  · by_cases hpr : p = r
    · exact hnot (hpr ▸ hnew)
    · unfold Final at hnew
      rw [confirmationLevel_visit, if_neg hpr] at hnew
      exact hold hnew

theorem Covered.recompute {sup : Bool} {ts : List Task}
    (h : Covered stakeOf ⟨s, .recompute r sup :: ts⟩)
    (hquiet : r ∈ s.anchored → ¬ s.Final r → s.NoneWaits r) :
    Covered stakeOf ⟨(s.perform (.recompute r sup)).1, (s.perform (.recompute r sup)).2 ++ ts⟩ := by
  have hdata := s.testData_visit sup r
  refine ⟨fixedStakes_of_testData hdata h.stakes, fun q hq => ?_⟩
  by_cases hqr : q = r
  · subst hqr
    exact Or.inl (final_of_ready_visit hq)
  have hkept : ∀ p, p ≠ r → ((s.visit sup r).1.Final p ↔ s.Final p) := by
    intro p hp
    unfold Final
    rw [confirmationLevel_visit, if_neg hp]
  rcases ready_or_raised (SameTests.of_testData hdata q) hq with hready | hraised
  · rcases h.ready q hready with hfinal | ⟨sup', hmem⟩
    · exact Or.inl ((hkept q hqr).mpr hfinal)
    · refine Or.inr ⟨sup', List.mem_append_right _ ?_⟩
      rcases List.mem_cons.mp hmem with heq | hmem
      · injection heq with heq
        exact absurd heq hqr
      · exact hmem
  · -- the parent that became final is the record that was recomputed
    obtain ⟨hsupported, p, hp, hold, hnew⟩ := hraised
    have hpr : p = r := by
      by_contra hpr
      exact hold ((hkept p hpr).mp hnew)
    subst hpr
    by_cases hanch : p ∈ s.anchored
    · exact Or.inl ((hkept q hqr).mpr (hquiet hanch hold q hp hsupported))
    · have hrise : (s.recomputedLevel p).isFinal = true := by
        unfold Final at hnew
        rwa [confirmationLevel_visit, if_pos rfl] at hnew
      have hchild : q ∈ (s.visit sup p).2 :=
        children_of_rise hanch (Bool.eq_false_iff.mpr hold) hrise q hp
      exact Or.inr ⟨sup, List.mem_append_left _ (List.mem_map.mpr ⟨q, hchild, rfl⟩)⟩

theorem Covered.force {ts : List Task} (h : Covered stakeOf ⟨s, .force r :: ts⟩) :
    Covered stakeOf ⟨(s.perform (.force r)).1, (s.perform (.force r)).2 ++ ts⟩ := by
  have hwaiting : ∀ {q}, (∃ sup, .recompute q sup ∈ Task.force r :: ts) →
      ∃ sup, .recompute q sup ∈ ts := by
    rintro q ⟨sup, hmem⟩
    exact ⟨sup, (List.mem_cons.mp hmem).resolve_left (fun heq => by cases heq)⟩
  have hperform : s.perform (.force r) = if (s.confirmationLevel r).isFinal then (s, []) else
      ((s.setLevel r .finalized).enqueueFinalized r,
        (s.children r).map fun child => .recompute child false) := rfl
  by_cases hfinal : (s.confirmationLevel r).isFinal = true
  · rw [hperform, if_pos hfinal]
    exact ⟨h.stakes, fun q hq => (h.ready q hq).imp_right hwaiting⟩
  have hpromotes := promotes_force s r
  rw [hperform, if_neg hfinal] at hpromotes ⊢
  have hdata : ((s.setLevel r .finalized).enqueueFinalized r).testData = s.testData :=
    testData_enqueueFinalized _ r
  refine ⟨fixedStakes_of_testData hdata h.stakes, fun q hq => ?_⟩
  rcases ready_or_raised (SameTests.of_testData hdata q) hq with hready | hraised
  · refine (h.ready q hready).imp hpromotes.final fun hmem => ?_
    obtain ⟨sup, hmem⟩ := hwaiting hmem
    exact ⟨sup, List.mem_append_right _ hmem⟩
  · -- the only record that became final is the forced one
    obtain ⟨_, p, hp, hold, hnew⟩ := hraised
    have hpr : p = r := by
      by_contra hpr
      have hlevel := s.confirmationLevel_setLevel r p .finalized
      rw [if_neg hpr] at hlevel
      unfold Final at hnew hold
      rw [← hlevel] at hold
      unfold confirmationLevel at hnew hold
      rw [confirmationLevels_enqueueFinalized] at hnew
      exact hold hnew
    subst hpr
    exact Or.inr ⟨false, List.mem_append_left _ (List.mem_map.mpr ⟨q, mem_children.mpr hp, rfl⟩)⟩

end Tasks

/-! ### Attestations -/

/-- The second engine has forgotten some records of the first, and nothing else. -/
structure Forgets [Sha3] (s t : AWCConsensus) : Prop where
  kept : ∀ q, t.attestationsOf q ≠ [] →
    SameTests q s t ∧ t.confirmationLevel q = s.confirmationLevel q
  final : ∀ p, t.Final p → s.Final p
  livenessDecayEnabled : t.livenessDecayEnabled = s.livenessDecayEnabled
  anchored : t.anchored = s.anchored

namespace Forgets

variable [Sha3] {s t u : AWCConsensus}

theorem refl (s : AWCConsensus) : Forgets s s :=
  ⟨fun q _ => ⟨SameTests.refl q s, rfl⟩, fun _ h => h, rfl, rfl⟩

theorem trans (h : Forgets s t) (h' : Forgets t u) : Forgets s u := by
  refine ⟨fun q hq => ?_, fun p hp => h.final p (h'.final p hp),
    h'.livenessDecayEnabled.trans h.livenessDecayEnabled, h'.anchored.trans h.anchored⟩
  obtain ⟨hsame', hlevel'⟩ := h'.kept q hq
  rw [← hsame'.attestations] at hq
  obtain ⟨hsame, hlevel⟩ := h.kept q hq
  exact ⟨hsame.trans hsame', hlevel'.trans hlevel⟩

end Forgets

theorem forgets_evictOldestAttestations [Sha3] [Iteration] (s : AWCConsensus) (n : ℕ) :
    Forgets s (s.evictOldestAttestations n) := by
  unfold evictOldestAttestations
  refine List.foldlRecOn _ _ (motive := Forgets s) (Forgets.refl s) fun t ht e _ => ht.trans ?_
  refine ⟨fun q hq => ?_, fun p hp => ?_, rfl, rfl⟩
  · have hne : q ≠ e.1 := by
      intro heq
      exact hq ((Table.getD_erase t.attestations e.1 q []).trans (if_pos heq))
    have hgetD : ∀ {ν : Type} (table : Table Str ν) (d : ν),
        Table.getD (table.erase e.1) q d = table.getD q d := fun table d =>
      (table.getD_erase e.1 q d).trans (if_neg hne)
    have hlookup : ∀ {ν : Type} (table : Table Str ν),
        (table.erase e.1).lookup q = table.lookup q := fun table =>
      (table.lookup_erase_eq e.1 q).trans (if_neg hne)
    exact ⟨⟨rfl, rfl, rfl, rfl, rfl, rfl, rfl, (hgetD _ _).symm, (hlookup _).symm,
      (hgetD _ _).symm, (hlookup _).symm⟩, hgetD _ _⟩
  · have hlevel := t.confirmationLevels.getD_erase e.1 p .pending
    unfold Final confirmationLevel at hp ⊢
    rw [hlevel] at hp
    split at hp
    · cases hp
    · exact hp

theorem forgets_addAttestation [Sha3] [Iteration] (s : AWCConsensus) (a : Attestation) :
    ∃ t, Forgets s t ∧ s.addAttestation a = t.admitAttestation a := by
  unfold addAttestation
  split
  · exact ⟨_, forgets_evictOldestAttestations s _, rfl⟩
  · exact ⟨s, Forgets.refl s, rfl⟩

theorem refreshStake_eq {w : Str} {stake : ℕ} {atts : List Attestation}
    (h : ∀ b ∈ atts, b.witnessHash = w → b.stake = stake) : refreshStake w stake atts = atts := by
  induction atts with
  | nil => rfl
  | cons b rest ih =>
    obtain ⟨hb, hrest⟩ := List.forall_mem_cons.mp h
    rw [refreshStake]
    split
    · next hw => rw [← hb hw]
    · rw [ih hrest]

section Attestations

variable [Sha3] {s t : AWCConsensus} {a : Attestation} {stakeOf : Str → ℕ}

theorem Forgets.fixedStakes (h : Forgets s t) (hs : s.FixedStakes stakeOf) :
    t.FixedStakes stakeOf := by
  intro r a ha
  have hsame := (h.kept r (List.ne_nil_of_mem ha)).1
  exact hs r a (hsame.attestations ▸ ha)

omit [Sha3] in
/-- With fixed stakes an attestation is appended, and the level of its record recomputed, or
nothing happens to the attestations. -/
theorem attestationsOf_admit_of_fixed (hstakes : s.FixedStakes stakeOf)
    (ha : a.stake = stakeOf a.witnessHash) (q : Str) :
    (s.admitAttestation a).1.attestationsOf q = s.attestationsOf q ∨
      (.recompute q false ∈ (s.admitAttestation a).2 ∧
        (s.admitAttestation a).1.attestationsOf q = s.attestationsOf q ++ [a]) := by
  have hinsert : ∀ atts, Table.getD (s.attestations.insert a.recordId atts) q [] =
      if q = a.recordId then atts else s.attestationsOf q :=
    fun atts => Table.getD_insert _ _ _ _ _
  unfold admitAttestation
  dsimp only
  split
  · exact Or.inl rfl
  split
  · have hentry : refreshStake a.witnessHash a.stake (s.attestationsOf a.recordId) =
        s.attestationsOf a.recordId := by
      refine refreshStake_eq fun b hb hw => ?_
      rw [hstakes _ b hb, ha, hw]
    refine Or.inl ((hinsert _).trans ?_)
    rw [hentry]
    split
    · next hq => rw [hq]
    · rfl
  · by_cases hq : q = a.recordId
    · subst hq
      exact Or.inr ⟨List.mem_singleton.mpr rfl, (hinsert _).trans (if_pos rfl)⟩
    · exact Or.inl ((hinsert _).trans (if_neg hq))

omit [Sha3] in
theorem fixedStakes_admitAttestation (hstakes : s.FixedStakes stakeOf)
    (ha : a.stake = stakeOf a.witnessHash) : (s.admitAttestation a).1.FixedStakes stakeOf := by
  intro q b hb
  rcases attestationsOf_admit_of_fixed hstakes ha q with hsame | ⟨_, happend⟩
  · exact hstakes q b (hsame ▸ hb)
  · rw [happend, List.mem_append, List.mem_singleton] at hb
    rcases hb with hb | rfl
    · exact hstakes q b hb
    · exact ha

/-- The tests of a record whose attestations stay the same stay the same, if there is no
silent stake that the witness could bring back to life. -/
theorem sameTests_admitAttestation {q : Str} (hoff : s.livenessDecayEnabled = false)
    (h : (s.admitAttestation a).1.attestationsOf q = s.attestationsOf q) :
    SameTests q s (s.admitAttestation a).1 := by
  have hsetup := sameSetup_admitAttestation s a
  have hdecayed : s.decayedZoneStake = (s.admitAttestation a).1.decayedZoneStake := by
    funext zone
    unfold decayedZoneStake
    simp only [← hsetup.livenessDecayEnabled, hoff, hsetup.zoneStakes, Bool.false_eq_true,
      not_false_eq_true, true_or, if_true]
  refine ⟨hsetup.zoneCount, hsetup.rotationZoneOverrides, hsetup.committeeStakes,
    hsetup.committeeMembers, hdecayed, hsetup.profiles, hsetup.derivedGeo, ?_, ?_, h.symm, ?_⟩
  · rw [hsetup.creatorStakes]
  · rw [hsetup.creatorIdentity]
  · rw [hsetup.crossZoneParents]

/-- An attestation that comes after some records were forgotten. -/
theorem Covered.admitAttestation (h : Covered stakeOf ⟨s, []⟩) (hforgets : Forgets s t)
    (ha : a.stake = stakeOf a.witnessHash)
    (hquiet : s.livenessDecayEnabled = true → ∀ q, .recompute q false ∉ (t.admitAttestation a).2 →
      (t.admitAttestation a).1.Supported q → s.Supported q) :
    Covered stakeOf ⟨(t.admitAttestation a).1, (t.admitAttestation a).2⟩ := by
  have hstakes := hforgets.fixedStakes h.stakes
  refine ⟨fixedStakes_admitAttestation hstakes ha, fun q hq => ?_⟩
  by_cases hmem : .recompute q false ∈ (t.admitAttestation a).2
  · exact Or.inr ⟨false, hmem⟩
  -- the record was ready before, so it was final, and its level is what it was
  have hatts := (attestationsOf_admit_of_fixed hstakes ha q).resolve_right fun h => hmem h.1
  obtain ⟨hsame, hlevel⟩ := hforgets.kept q (hatts ▸ hq.1.attestations_ne_nil)
  have hsupported : s.Supported q := by
    cases hdecay : s.livenessDecayEnabled with
    | true => exact hquiet hdecay q hmem hq.1
    | false =>
      have hkept := sameTests_admitAttestation (hforgets.livenessDecayEnabled.trans hdecay) hatts
      exact (hsame.trans hkept).supported_iff.mpr hq.1
  have hparent : ∀ p, (t.admitAttestation a).1.Parent p q ↔ s.Parent p q := by
    intro p
    unfold Parent
    rw [← (sameSetup_admitAttestation t a).crossZoneParents, hsame.parents]
  have hfinal : ∀ p, (t.admitAttestation a).1.Final p ↔ t.Final p := by
    intro p
    unfold Final
    rw [confirmationLevel_admitAttestation]
  obtain ⟨⟨p₀, hp₀⟩, hall⟩ := crossZoneParentsFinalized_iff.mp hq.2
  have hready : s.Ready q := by
    refine ⟨hsupported, crossZoneParentsFinalized_iff.mpr ⟨⟨p₀, (hparent p₀).mp hp₀⟩, ?_⟩⟩
    intro p hp
    exact hforgets.final p ((hfinal p).mp (hall p ((hparent p).mpr hp)))
  rcases h.ready q hready with hold | ⟨sup, hnil⟩
  · refine Or.inl ((hfinal q).mpr ?_)
    unfold Final
    rw [hlevel]
    exact hold
  · cases hnil

end Attestations

section Cascade

variable [Sha3] [Iteration]

/-! ### Runs -/

/-- One step with fixed stakes and profiles that leaves no child behind: an anchored record
is made final again only if no child waits for it. -/
inductive QuietStep (stakeOf : Str → ℕ) : Config → Config → Prop
  | call {s : AWCConsensus} {c : Call} (allowed : s.Allowed stakeOf c) (quiet : s.Quiet c) :
    QuietStep stakeOf ⟨s, []⟩ ⟨(s.start c).1, (s.start c).2⟩
  | recompute {s : AWCConsensus} {r : Str} {sup : Bool} {ts : List Task}
    (quiet : r ∈ s.anchored → ¬ s.Final r → s.NoneWaits r) :
    QuietStep stakeOf ⟨s, .recompute r sup :: ts⟩
      ⟨(s.perform (.recompute r sup)).1, (s.perform (.recompute r sup)).2 ++ ts⟩
  | force {s : AWCConsensus} {r : Str} {ts : List Task} :
    QuietStep stakeOf ⟨s, .force r :: ts⟩
      ⟨(s.perform (.force r)).1, (s.perform (.force r)).2 ++ ts⟩

variable {stakeOf : Str → ℕ}

variable {s s' : AWCConsensus} {fuel : ℕ}

theorem Covered.call {c : Call} (h : Covered stakeOf ⟨s, []⟩)
    (hallowed : s.Allowed stakeOf c) (hquiet : s.Quiet c) :
    Covered stakeOf ⟨(s.start c).1, (s.start c).2⟩ := by
  cases c with
  | addAttestation a =>
    obtain ⟨t, hforgets, heq⟩ := forgets_addAttestation s a
    show Covered stakeOf ⟨(s.addAttestation a).1, (s.addAttestation a).2⟩
    rw [Quiet, heq] at hquiet
    rw [heq]
    exact h.admitAttestation hforgets hallowed hquiet
  | forceFinalized r =>
    exact ⟨h.stakes, fun q hq => (h.ready q hq).imp_right fun ⟨_, hnil⟩ => by cases hnil⟩
  | forceFinalizeSettled =>
    exact ⟨h.stakes, fun q hq => (h.ready q hq).imp_right fun ⟨_, hnil⟩ => by cases hnil⟩
  | registerSealRecords sealId rs =>
    exact h.promoted (s.testData_registerSealRecords sealId rs)
      (promotes_registerSealRecords s sealId rs) hquiet
  | addSealAttestation a now =>
    exact h.promoted (s.testData_addSealAttestation a now)
      (promotes_addSealAttestation s a now) hquiet
  | registerCrossZoneParents r parents => exact h.registerCrossZoneParents hallowed
  | registerProfile w profile => exact hallowed.elim
  | promoteAnchored now =>
    exact h.promoted (s.testData_promoteAnchored now) (Promotes.foldl promotes_anchorSeal _ s) hquiet

theorem Covered.step {c d : Config} (h : Covered stakeOf c) (hstep : QuietStep stakeOf c d) :
    Covered stakeOf d := by
  cases hstep with
  | call hallowed hquiet => exact h.call hallowed hquiet
  | recompute hquiet => exact h.recompute hquiet
  | force => exact h.force

theorem Covered.run {c d : Config} (h : Covered stakeOf c)
    (hrun : Relation.ReflTransGen (QuietStep stakeOf) c d) : Covered stakeOf d := by
  induction hrun with
  | refl => exact h
  | tail _ hstep ih => exact ih.step hstep

omit [Iteration] in
theorem Covered.initial (h : s.attestations = ∅) : Covered stakeOf ⟨s, []⟩ := by
  have hnone : ∀ r, s.attestationsOf r = [] := by
    intro r
    unfold attestationsOf
    rw [h]
    rfl
  refine ⟨fun r a ha => ?_, fun r hr => absurd (hnone r) hr.1.attestations_ne_nil⟩
  rw [hnone] at ha
  cases ha

/-- After quiet steps from an engine without attestations, when no task is left, every record
with three witnesses, a cluster, the stake, and parents in other zones that are all final is
final itself. -/
theorem ready_final {s₀ s : AWCConsensus} (hinit : s₀.attestations = ∅)
    (hrun : Relation.ReflTransGen (QuietStep stakeOf) ⟨s₀, []⟩ ⟨s, []⟩) :
    ∀ r, s.Ready r → s.Final r := by
  intro r hr
  rcases ((Covered.initial hinit).run hrun).ready r hr with hfinal | ⟨sup, hnil⟩
  · exact hfinal
  · cases hnil

theorem sameInputs_perform (s : AWCConsensus) (task : Task) : SameInputs s (s.perform task).1 := by
  cases task with
  | recompute r sup => exact sameInputs_visit s sup r
  | force r =>
    show SameInputs s (if (s.confirmationLevel r).isFinal then (s, []) else _).1
    split
    · exact SameInputs.refl s
    · refine (sameInputs_setLevel s r .finalized).trans ?_
      unfold enqueueFinalized
      split <;> exact { SameInputs.refl _ with }

theorem sameInputs_drain {tasks : List Task}
    (h : s.drain fuel tasks = some s') : SameInputs s s' := by
  induction fuel generalizing s tasks with
  | zero =>
    cases tasks with
    | nil => cases h; exact SameInputs.refl _
    | cons task tasks => cases h
  | succ fuel ih =>
    cases tasks with
    | nil => cases h; exact SameInputs.refl _
    | cons task tasks => exact (sameInputs_perform s task).trans (ih h)

/-- A call with its tasks is a run of quiet steps, if the call is quiet and nothing is
anchored. -/
theorem quiet_of_call {c : Call} (hallowed : s.Allowed stakeOf c)
    (hquiet : s.Quiet c) (hanch : (s.start c).1.anchored = ∅) (h : s.call fuel c = some s') :
    Relation.ReflTransGen (QuietStep stakeOf) ⟨s, []⟩ ⟨s', []⟩ := by
  refine Relation.ReflTransGen.head (QuietStep.call hallowed hquiet) ?_
  unfold AWCConsensus.call at h
  generalize (s.start c).1 = t at hanch h ⊢
  generalize (s.start c).2 = tasks at h ⊢
  induction fuel generalizing t tasks with
  | zero =>
    cases tasks with
    | nil => cases h; exact Relation.ReflTransGen.refl
    | cons task tasks => cases h
  | succ fuel ih =>
    cases tasks with
    | nil => cases h; exact Relation.ReflTransGen.refl
    | cons task tasks =>
      have hrest := ih _ ((sameInputs_perform t task).anchored.symm.trans hanch) _ h
      cases task with
      | recompute r sup =>
        refine Relation.ReflTransGen.head (QuietStep.recompute fun hr => ?_) hrest
        rw [hanch] at hr
        exact absurd hr (Finset.notMem_empty r)
      | force r => exact Relation.ReflTransGen.head QuietStep.force hrest

/-- The force itself makes no record final, its task does. -/
theorem quiet_forceFinalized (s : AWCConsensus) (r : Str) : s.Quiet (.forceFinalized r) :=
  fun _ hold hnew => absurd hnew hold

/-- Without decay and anchored records all attestations with fixed stakes are quiet. -/
theorem quiet_of_attestations {atts : List Attestation}
    (hoff : s.livenessDecayEnabled = false) (hanch : s.anchored = ∅)
    (hstakes : ∀ a ∈ atts, a.stake = stakeOf a.witnessHash)
    (h : s.calls fuel (atts.map .addAttestation) = some s') :
    Relation.ReflTransGen (QuietStep stakeOf) ⟨s, []⟩ ⟨s', []⟩ ∧ s'.anchored = ∅ := by
  induction atts generalizing s with
  | nil =>
    cases h
    exact ⟨Relation.ReflTransGen.refl, hanch⟩
  | cons a atts ih =>
    obtain ⟨ha, hrest⟩ := List.forall_mem_cons.mp hstakes
    obtain ⟨u, hu, hcalls⟩ := Option.bind_eq_some_iff.mp h
    obtain ⟨t, hforgets, heq⟩ := forgets_addAttestation s a
    have hsame : SameSetup t (s.start (.addAttestation a)).1 := by
      show SameSetup t (s.addAttestation a).1
      rw [heq]
      exact sameSetup_admitAttestation t a
    have hstart : (s.start (.addAttestation a)).1.anchored = ∅ := by
      rw [← hsame.anchored, hforgets.anchored, hanch]
    have hdrain := sameInputs_drain hu
    have hquiet : s.Quiet (.addAttestation a) := by
      intro hon
      rw [hoff] at hon
      cases hon
    obtain ⟨hrun, hend⟩ := ih (by
      rw [← hdrain.livenessDecayEnabled, ← hsame.livenessDecayEnabled,
        hforgets.livenessDecayEnabled, hoff]) (hdrain.anchored.symm.trans hstart) hrest hcalls
    exact ⟨(quiet_of_call (c := .addAttestation a) ha hquiet hstart hu).trans hrun, hend⟩

end Cascade

/-! ### A child left behind -/

section Sample

attribute [local instance] Smt.guardedSha3 Iteration.stored

/-- The parent is sealed, and a witness with all the stake attests the seal. -/
def parentSealed : List Call :=
  [.registerSealRecords (.text "s") [parentRecord],
    .addSealAttestation ⟨.text "s", zoneFromLegacy 0, 0, .text "e", 45, F64.zero⟩ F64.zero]

/-- The engine after the attestations of the child. -/
def childAttested : AWCConsensus :=
  (linkedEngine.calls 2 (childAttestations.map .addAttestation)).getD linkedEngine

/-- The engine after the parent was forced final, too. -/
def parentForced : AWCConsensus :=
  (childAttested.call 2 (.forceFinalized parentRecord)).getD childAttested

/-- A child that waits for its parent is final once the parent is forced. -/
theorem ready_final_forced : parentForced.Ready childRecord ∧ parentForced.Final childRecord := by
  have hsome : ∀ {o : Option AWCConsensus} (s : AWCConsensus), o.isSome = true →
      o = some (o.getD s) := by
    rintro (_ | t) s h
    · cases h
    · rfl
  have hchild : linkedEngine.calls 2 (childAttestations.map .addAttestation) = some childAttested :=
    hsome _ (by decide +kernel)
  have hparent : childAttested.call 2 (.forceFinalized parentRecord) = some parentForced :=
    hsome _ (by decide +kernel)
  obtain ⟨hrun, hanch⟩ : Relation.ReflTransGen (QuietStep fun _ => 10) ⟨linkedEngine, []⟩
      ⟨childAttested, []⟩ ∧ childAttested.anchored = ∅ :=
    quiet_of_attestations rfl rfl (by decide) hchild
  have hforce : Relation.ReflTransGen (QuietStep fun _ => 10)
      ⟨childAttested, []⟩ ⟨parentForced, []⟩ :=
    quiet_of_call (s := childAttested) (c := .forceFinalized parentRecord) trivial
      (quiet_forceFinalized childAttested parentRecord) hanch hparent
  have hready : parentForced.Ready childRecord := by decide +kernel
  exact ⟨hready, ready_final rfl (hrun.trans hforce) childRecord hready⟩

/-- A child that waits for its parent is left behind when the seal of the parent settles. -/
theorem child_left_behind :
    ∃ s ∈ linkedEngine.calls 2 (childAttestations.map .addAttestation ++ parentSealed),
      s.Ready childRecord ∧ s.confirmationLevel childRecord = .sealed := by
  decide +kernel

end Sample

end ElaraMesh.Consensus
