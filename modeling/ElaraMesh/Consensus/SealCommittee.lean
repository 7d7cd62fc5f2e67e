import ElaraMesh.Consensus.Diverse

/-!
# Seals of a zone with a committee

A seal is settled against the stake of the committee of its zone.  The stake of its creator is
taken off that denominator whether the creator is a member or not (a record is treated better:
there only the stake of a member is taken off), and the attesting stake is that of whoever
attested.  So a seal of a creator from outside settles with less than two thirds of the committee.

## Main results

* `sealCommitteeSafe_iff` — that is so if nobody from outside attests the seal and the creator is
  a member or without stake, and else only by rounding or if nothing settles at all.
-/

namespace ElaraMesh.Consensus

open Record (Str ZoneId)
open AWCConsensus

def sealWitnesses (s : AWCConsensus) (sealId : Str) : List (Str × ℕ) :=
  (s.sealAttestationsOf sealId).map fun a => (a.witnessHash, a.stake)

/-- The stake with which members of the committee attest a seal. -/
def sealMemberStake (members : List (Str × ℕ)) (s : AWCConsensus) (sealId : Str) : ℕ :=
  (((sealWitnesses s sealId).filter fun w => w.1 ∈ members.map Prod.fst).map Prod.snd).sum

def sealOutsideStake (members : List (Str × ℕ)) (s : AWCConsensus) (sealId : Str) : ℕ :=
  (((sealWitnesses s sealId).filter fun w => w.1 ∉ members.map Prod.fst).map Prod.snd).sum

/-- A seal of a zone, by the zone of its first attestation, and not settled across zones. -/
structure CommitteeSeal (zone : ZoneId) (creator : Str) (s : AWCConsensus) (sealId : Str) :
    Prop where
  notGlobal : s.globalSealStuckZone.lookup sealId = none
  creator_eq : s.creatorIdentity.lookup sealId = some creator
  zone_eq : ∀ a ∈ (s.sealAttestationsOf sealId).head?, a.zone = zone

/-- A settled seal of a zone with a committee of this stake is attested by two thirds of the
committee, without the stake of the creator if it is a member. -/
def SealCommitteeSafe (total creatorStake outside : ℕ) (isMember : Bool) : Prop :=
  ∀ (s : AWCConsensus) (zone : ZoneId) (members : List (Str × ℕ)) (creator sealId : Str),
    members ≠ [] → (members.map Prod.fst).Nodup → (members.map Prod.snd).sum = total →
    CommitteeSeal zone creator (s.registerEpochCommittee zone members) sealId →
    (creator ∈ members.map Prod.fst ↔ isMember = true) →
    (s.registerEpochCommittee zone members).creatorStakes.getD sealId 0 = creatorStake →
    sealOutsideStake members (s.registerEpochCommittee zone members) sealId = outside →
    (s.registerEpochCommittee zone members).isSealSettled sealId = true →
    2 * (total - if isMember then creatorStake else 0) ≤
      3 * sealMemberStake members (s.registerEpochCommittee zone members) sealId

theorem sealStake_eq_add (members : List (Str × ℕ)) (s : AWCConsensus) (sealId : Str) :
    ((sealWitnesses s sealId).map Prod.snd).sum =
      sealMemberStake members s sealId + sealOutsideStake members s sealId :=
  (List.sum_map_filter_add_sum_map_filter_not _ _ _).symm

theorem settlementDenominator_registerEpochCommittee (s : AWCConsensus) (zone : ZoneId)
    {members : List (Str × ℕ)} (hne : members ≠ []) (hpos : 0 < (members.map Prod.snd).sum) :
    (s.registerEpochCommittee zone members).settlementDenominator zone =
      (members.map Prod.snd).sum := by
  have hstakes : (s.registerEpochCommittee zone members).committeeStakes.lookup zone =
      some (members.map Prod.snd).sum := by
    unfold registerEpochCommittee
    rw [if_neg hne]
    exact AList.lookup_insert _
  unfold settlementDenominator
  rw [hstakes]
  exact if_pos hpos

theorem CommitteeSeal.isSealSettled_iff {zone : ZoneId} {creator sealId : Str} {s : AWCConsensus}
    (h : CommitteeSeal zone creator s sealId) :
    s.isSealSettled sealId = true ↔ s.sealAttestationsOf sealId ≠ [] ∧
      s.creatorStakes.getD sealId 0 < s.settlementDenominator zone ∧
      diverseThresholdMetQ (s.effectiveStakeQ (sealWitnesses s sealId))
        (s.settlementDenominator zone - s.creatorStakes.getD sealId 0) = true := by
  unfold isSealSettled sealWitnesses
  rw [h.notGlobal]
  cases hatts : s.sealAttestationsOf sealId with
  | nil => simp
  | cons first rest =>
    have hzone : first.zone = zone := h.zone_eq first (by rw [hatts]; rfl)
    dsimp only
    rw [hzone]
    unfold U64.satSub
    split
    · next hzero =>
      have hnot : ¬ s.creatorStakes.getD sealId 0 < s.settlementDenominator zone := by omega
      simp [hnot]
    · next hne =>
      have hlt : s.creatorStakes.getD sealId 0 < s.settlementDenominator zone := by omega
      simp [hlt]

/-- Without stake from outside a member's stake, or none, may be taken off. -/
theorem sealCommitteeSafe_of {total creatorStake outside : ℕ} {isMember : Bool} (hpos : 0 < total)
    (hfits : total ≤ U64.max)
    (h : total ≤ creatorStake ∨
      outside = 0 ∧ (isMember = true ∨ creatorStake = 0 ∨ creatorStake = 1 ∧ 3 ∣ total)) :
    SealCommitteeSafe total creatorStake outside isMember := by
  rintro s zone members creator sealId hne - rfl hseal - rfl rfl hsettled
  obtain ⟨-, hlt, hmet⟩ := hseal.isSealSettled_iff.mp hsettled
  rw [settlementDenominator_registerEpochCommittee s zone hne hpos] at hlt hmet
  have hquorum := two_thirds_of_met ((Nat.sub_le _ _).trans hfits) hmet
  rw [sealStake_eq_add members] at hquorum
  rcases h with hnothing | ⟨hout, hmember | hzero | ⟨hone, hthird⟩⟩
  · omega
  · rw [if_pos hmember]
    omega
  · rw [hzero, ite_self]
    omega
  · -- a single unit is lost in the rounding
    split <;> omega

/-! ### A seal that settles with too little -/

section Short

def sealS : Str := .text "s"

/-- A member attests, and an outsider if it has stake. -/
def shortAttestations (inside outside : ℕ) : List SealAttestation :=
  ⟨sealS, zoneFromLegacy 0, 0, witnessX, inside, F64.zero⟩ ::
    if outside = 0 then []
    else [⟨sealS, zoneFromLegacy 0, 0, witnessZ, outside, F64.zero⟩]

/-- The committee: the creator if it is a member, the attesting member, and one with the rest. -/
def shortMembers (isMember : Bool) (total creatorStake inside : ℕ) : List (Str × ℕ) :=
  (if isMember then [(creatorK, creatorStake)] else []) ++
    [(witnessX, inside), (witnessY, (total - if isMember then creatorStake else 0) - inside)]

/-- The profile of a witness of its own organization. -/
def loneProfile (name : Str) : WitnessProfile := ⟨name, Str.empty, Str.empty⟩

/-- The engine before the committee is registered. -/
def shortBase (creatorStake inside outside : ℕ) : AWCConsensus :=
  { AWCConsensus.new with
    profiles := (AList.singleton witnessX (loneProfile witnessX)).insert witnessZ
      (loneProfile witnessZ)
    creatorStakes := AList.singleton sealS creatorStake
    creatorIdentity := AList.singleton sealS creatorK
    sealAttestations := AList.singleton sealS (shortAttestations inside outside) }

def shortNode (isMember : Bool) (total creatorStake inside outside : ℕ) : AWCConsensus :=
  (shortBase creatorStake inside outside).registerEpochCommittee (zoneFromLegacy 0)
    (shortMembers isMember total creatorStake inside)

variable {isMember : Bool} {total creatorStake inside outside : ℕ}

theorem names_shortMembers :
    (shortMembers isMember total creatorStake inside).map Prod.fst =
      (if isMember then [creatorK] else []) ++ [witnessX, witnessY] := by
  cases isMember <;> rfl

theorem sum_shortMembers (hcreator : creatorStake ≤ total)
    (hinside : inside ≤ total - if isMember then creatorStake else 0) :
    ((shortMembers isMember total creatorStake inside).map Prod.snd).sum = total := by
  cases isMember
  · simp [shortMembers] at hinside ⊢
    omega
  · simp [shortMembers] at hinside ⊢
    omega

theorem sealWitnesses_shortNode :
    sealWitnesses (shortNode isMember total creatorStake inside outside) sealS =
      (witnessX, inside) :: if outside = 0 then [] else [(witnessZ, outside)] := by
  have hatts : (shortNode isMember total creatorStake inside outside).sealAttestationsOf sealS =
      shortAttestations inside outside := by cases isMember <;> rfl
  unfold sealWitnesses
  rw [hatts, shortAttestations]
  split <;> rfl

theorem stakes_shortNode :
    sealMemberStake (shortMembers isMember total creatorStake inside)
        (shortNode isMember total creatorStake inside outside) sealS = inside ∧
      sealOutsideStake (shortMembers isMember total creatorStake inside)
        (shortNode isMember total creatorStake inside outside) sealS = outside := by
  have hX : witnessX ∈ (if isMember then [creatorK] else []) ++ [witnessX, witnessY] := by simp
  have hZ : witnessZ ∉ (if isMember then [creatorK] else []) ++ [witnessX, witnessY] := by
    cases isMember <;> decide
  unfold sealMemberStake sealOutsideStake
  rw [sealWitnesses_shortNode, names_shortMembers]
  by_cases hzero : outside = 0
  · rw [if_pos hzero, hzero]
    simp [hX, -List.mem_append]
  · rw [if_neg hzero]
    simp [hX, hZ, -List.mem_append]

theorem correlation_shortNode {v w : Str} (hv : v ∈ [witnessX, witnessZ])
    (hw : w ∈ [witnessX, witnessZ]) (hvw : v ≠ w) (gamma : ℕ) :
    (shortNode isMember total creatorStake inside outside).correlationWeightedQ v w gamma = 0 := by
  have hprofiles : (shortNode isMember total creatorStake inside outside).profiles =
      (shortBase 0 0 0).profiles := by cases isMember <;> rfl
  have hgeo : (shortNode isMember total creatorStake inside outside).derivedGeo = ∅ := by
    cases isMember <;> rfl
  have hknown : ∀ u ∈ [witnessX, witnessZ],
      (shortBase 0 0 0).profiles.lookup u = some (loneProfile u) := by
    simp only [List.forall_mem_cons]
    exact ⟨by decide +kernel, by decide +kernel, List.forall_mem_nil _⟩
  unfold correlationWeightedQ
  rw [hprofiles, hgeo, hknown v hv, hknown w hw]
  simp [loneProfile, hvw]

/-- Two thirds of what the engine takes for eligible settle the seal. -/
theorem not_sealCommitteeSafe (inside : ℕ) (hfits : total ≤ U64.max) (hcreator : creatorStake < total)
    (hinside : inside ≤ total - if isMember then creatorStake else 0)
    (hquorum : 2 * (total - creatorStake) ≤ 3 * (inside + outside))
    (hshort : 3 * inside < 2 * (total - if isMember then creatorStake else 0)) :
    ¬ SealCommitteeSafe total creatorStake outside isMember := by
  intro hsafe
  have hne : shortMembers isMember total creatorStake inside ≠ [] := by simp [shortMembers]
  have hsum := sum_shortMembers hcreator.le hinside
  obtain ⟨hin, hout⟩ := @stakes_shortNode isMember total creatorStake inside outside
  have hstake : (shortNode isMember total creatorStake inside outside).creatorStakes.getD sealS 0 =
      creatorStake := by cases isMember <;> rfl
  have hseal : CommitteeSeal (zoneFromLegacy 0) creatorK
      (shortNode isMember total creatorStake inside outside) sealS := by
    refine ⟨by cases isMember <;> rfl, by cases isMember <;> rfl, ?_⟩
    have hhead : ((shortNode isMember total creatorStake inside outside).sealAttestationsOf
        sealS).head? = (shortAttestations inside outside).head? := by cases isMember <;> rfl
    rw [hhead]
    rintro a ha
    cases ha
    rfl
  have hsettled : (shortNode isMember total creatorStake inside outside).isSealSettled sealS =
      true := by
    have hdenominator : (shortNode isMember total creatorStake inside outside).settlementDenominator
        (zoneFromLegacy 0) = total :=
      (settlementDenominator_registerEpochCommittee _ _ hne (by omega)).trans hsum
    refine hseal.isSealSettled_iff.mpr ⟨?_, ?_, ?_⟩
    · cases isMember <;> exact List.cons_ne_nil _ _
    · rw [hstake, hdenominator]
      exact hcreator
    · rw [hstake, hdenominator]
      refine met_of_two_thirds ((Nat.sub_le _ _).trans hfits)
        (effectiveStakeQ_uncorrelated _ ?_) ?_
      · have hnames : ∀ u ∈ sealWitnesses (shortNode isMember total creatorStake inside outside)
            sealS, u.1 ∈ [witnessX, witnessZ] := by
          rw [sealWitnesses_shortNode]
          split <;> simp
        exact fun v hv w hw hvw gamma =>
          correlation_shortNode (hnames v hv) (hnames w hw) hvw gamma
      · rw [sealStake_eq_add (shortMembers isMember total creatorStake inside), hin, hout]
        exact hquorum
  have hmember : creatorK ∈ (shortMembers isMember total creatorStake inside).map Prod.fst ↔
      isMember = true := by
    rw [names_shortMembers]
    cases isMember <;> decide
  have hnodup : ((shortMembers isMember total creatorStake inside).map Prod.fst).Nodup := by
    rw [names_shortMembers]
    cases isMember <;> decide
  have htwo := hsafe _ _ _ _ _ hne hnodup hsum hseal hmember hstake hout hsettled
  change _ ≤ 3 * sealMemberStake _ (shortNode isMember total creatorStake inside outside) _ at htwo
  rw [hin] at htwo
  omega

end Short

/-- A settled seal has two thirds of the committee behind it exactly if the stake of the creator
leaves nothing to settle against, or nobody from outside attests and the creator is a member,
without stake, or with one unit that the rounding absorbs. -/
theorem sealCommitteeSafe_iff {total : ℕ} (hpos : 0 < total) (hfits : total ≤ U64.max)
    (creatorStake outside : ℕ) (isMember : Bool) :
    SealCommitteeSafe total creatorStake outside isMember ↔
      total ≤ creatorStake ∨
        outside = 0 ∧ (isMember = true ∨ creatorStake = 0 ∨ creatorStake = 1 ∧ 3 ∣ total) := by
  refine ⟨fun hsafe => ?_, sealCommitteeSafe_of hpos hfits⟩
  by_contra hcon
  rw [not_or, Nat.not_le] at hcon
  obtain ⟨hlt, hcon⟩ := hcon
  -- the least stake of members with which the seal settles
  refine not_sealCommitteeSafe ((2 * (total - creatorStake) + 2) / 3 - outside) hfits hlt ?_ ?_ ?_
    hsafe
  · split <;> omega
  · omega
  · cases isMember
    · simp only [Bool.false_eq_true, false_or, if_false] at hcon ⊢
      omega
    · simp only [true_or, and_true, if_true] at hcon ⊢
      omega

/-- A creator from outside with half the stake of the committee. -/
theorem sealCommitteeSafe_iff_half :
    (0 < 100 ∧ 100 ≤ U64.max) ∧
      (¬ SealCommitteeSafe 100 50 0 false) ∧ SealCommitteeSafe 100 50 0 true :=
  ⟨by decide, fun h => absurd ((sealCommitteeSafe_iff (by decide) (by decide) _ _ _).mp h)
    (by decide), (sealCommitteeSafe_iff (by decide) (by decide) _ _ _).mpr (by decide)⟩

section Sample

attribute [local instance] Smt.guardedSha3 Iteration.stored

/-- A zone with a committee of two, and a seal by a third staker that one member attests. -/
def halvedNode : Option AWCConsensus :=
  let s := registerStakes { AWCConsensus.new with zoneCount := 1 } 150
    [(witnessX, 40), (witnessY, 60), (creatorK, 50)] 1
  let s := s.registerEpochCommittee (zoneFromLegacy 0) [(witnessX, 40), (witnessY, 60)]
  (s.registerCreatorStake sealS creatorK 50).1.calls 1
    [.addSealAttestation ⟨sealS, zoneFromLegacy 0, 0, witnessX, 40, F64.zero⟩ F64.zero]

/-- Forty of a hundred settle the seal. -/
theorem seal_settled_below_quorum :
    halvedNode.map (fun s => (s.isSealSettled sealS, s.settlementDenominator (zoneFromLegacy 0),
      sealMemberStake [(witnessX, 40), (witnessY, 60)] s sealS)) = some (true, 100, 40) ∧
      ¬ 2 * 100 ≤ 3 * 40 := by
  decide +kernel

end Sample

end ElaraMesh.Consensus
