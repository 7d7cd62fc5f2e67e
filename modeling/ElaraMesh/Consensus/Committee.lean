import ElaraMesh.Consensus.Quorum

/-!
# Committees

A committee of a zone makes its stake the denominator of the settlement test.  The
numerator is still the stake of whoever attested: `add_attestation` asks nobody whether
they are members.

## Main results

* `committeeSafe_iff` — that is so exactly if nobody from outside attests the record.
-/

namespace ElaraMesh.Consensus

open Record (Str ZoneId)
open Smt (Sha3)
open AWCConsensus

section Committees

variable [Sha3]

/-- The stake with which members of the committee attest a record. -/
def memberStake (members : List (Str × ℕ)) (s : AWCConsensus) (r : Str) : ℕ :=
  (((s.attestationsOf r).filter fun a => a.witnessHash ∈ members.map Prod.fst).map
    Attestation.stake).sum

def outsideStake (members : List (Str × ℕ)) (s : AWCConsensus) (r : Str) : ℕ :=
  (((s.attestationsOf r).filter fun a => a.witnessHash ∉ members.map Prod.fst).map
    Attestation.stake).sum

/-- The stake of the committee, without that of the creator if it is a member. -/
def committeeEligible (members : List (Str × ℕ)) (creator : Str) (s : AWCConsensus) (r : Str) : ℕ :=
  (members.map Prod.snd).sum -
    if creator ∈ members.map Prod.fst then s.creatorStakes.getD r 0 else 0

/-- A record of a zone with this committee, whose members are counted at their stakes. -/
structure CommitteeRecord (members : List (Str × ℕ)) (zone : ZoneId) (creator : Str)
    (s : AWCConsensus) (r : Str) : Prop extends Accepted creator s r where
  zone_eq : s.settlementZoneFor r = zone
  creator_stake : creator ∈ members.map Prod.fst → (creator, s.creatorStakes.getD r 0) ∈ members
  counted : ∀ a ∈ s.attestationsOf r, a.witnessHash ∈ members.map Prod.fst →
    (a.witnessHash, a.stake) ∈ members

/-- A settled record of a zone with a committee is attested by two thirds of the eligible
stake of the committee. -/
def CommitteeSafe (eligible outside : ℕ) : Prop :=
  ∀ (s : AWCConsensus) (zone : ZoneId) (members : List (Str × ℕ)) (creator r : Str),
    members ≠ [] → 0 < (members.map Prod.snd).sum → (members.map Prod.fst).Nodup →
    CommitteeRecord members zone creator (s.registerEpochCommittee zone members) r →
    committeeEligible members creator (s.registerEpochCommittee zone members) r = eligible →
    outsideStake members (s.registerEpochCommittee zone members) r = outside →
    (s.registerEpochCommittee zone members).isSettled r = true →
    2 * eligible ≤ 3 * memberStake members (s.registerEpochCommittee zone members) r

omit [Sha3] in
theorem attestingStake_eq_add (members : List (Str × ℕ)) (s : AWCConsensus) (r : Str) :
    s.attestingStake r = memberStake members s r + outsideStake members s r := by
  unfold attestingStake memberStake outsideStake
  exact (List.sum_map_filter_add_sum_map_filter_not _ _ _).symm

theorem CommitteeRecord.eligibleStake_eq {members : List (Str × ℕ)} {zone : ZoneId} {creator : Str}
    {s : AWCConsensus} {r : Str} (hmembers : members ≠ []) (hpos : 0 < (members.map Prod.snd).sum)
    (h : CommitteeRecord members zone creator (s.registerEpochCommittee zone members) r) :
    (s.registerEpochCommittee zone members).eligibleStake r =
      committeeEligible members creator (s.registerEpochCommittee zone members) r := by
  have hstakes : (s.registerEpochCommittee zone members).committeeStakes.lookup zone =
      some (members.map Prod.snd).sum := by
    unfold registerEpochCommittee
    rw [if_neg hmembers]
    exact AList.lookup_insert _
  have hset : (s.registerEpochCommittee zone members).committeeMembers.lookup zone =
      some (members.map Prod.fst).toFinset := by
    unfold registerEpochCommittee
    rw [if_neg hmembers]
    exact AList.lookup_insert _
  have hnonempty : (members.map Prod.fst).toFinset ≠ ∅ := by
    obtain ⟨p, l, rfl⟩ := List.exists_cons_of_ne_nil hmembers
    simp
  unfold eligibleStake settlementDenominator creatorStakeExcludedFromDenominator committeeEligible
  dsimp only
  rw [h.zone_eq, hstakes, hset, h.creator_eq]
  dsimp only
  rw [if_pos hpos, if_neg hnonempty]
  simp only [List.mem_toFinset, U64.satSub]
  by_cases hzero : (s.registerEpochCommittee zone members).creatorStakes.getD r 0 = 0
  · rw [if_pos hzero, hzero, ite_self]
  · rw [if_neg hzero]

theorem committeeSafe_of {eligible outside : ℕ}
    (h : eligible = 0 ∨ (outside = 0 ∧ eligible < 2 ^ 63)) : CommitteeSafe eligible outside := by
  rintro s zone members creator r hmembers hpos _ hrec rfl rfl hsettled
  obtain ⟨hne, hquorum⟩ := (isSettled_iff _ r).mp hsettled
  rw [hrec.eligibleStake_eq hmembers hpos] at hne hquorum
  rw [attestingStake_eq_add members] at hquorum
  rcases h with hzero | ⟨hout, hlt⟩
  · exact absurd hzero hne.ne'
  · unfold quorum U64.max at hquorum
    omega

/-- A member and an outsider, with the stakes they attest with. -/
def splitStakes (inside outside : ℕ) : Stakes :=
  Stakes.ofList [(witnessX, inside), (witnessZ, outside)]

/-- The member attests, and the outsider if it has stake. -/
def splitWitnesses (outside : ℕ) : List Str := witnessX :: if outside = 0 then [] else [witnessZ]

/-- The committee: the member, and another one with the rest of the stake. -/
def splitMembers (eligible inside : ℕ) : List (Str × ℕ) :=
  [(witnessX, inside), (witnessY, eligible - inside)]

def splitNode (eligible inside outside : ℕ) : AWCConsensus :=
  (withRecord (splitStakes inside outside) creatorK recordA (splitWitnesses outside)
    { AWCConsensus.new with zoneCount := 1 }).registerEpochCommittee (zoneFromLegacy 0)
    (splitMembers eligible inside)

section Split

variable {eligible inside outside : ℕ}

omit [Sha3] in
theorem of_splitStakes {id : Str} {stake : ℕ}
    (h : (id, stake) ∈ [(witnessX, inside), (witnessZ, outside)]) :
    (splitStakes inside outside).of id = stake :=
  Stakes.of_ofList (by show [witnessX, witnessZ].Nodup; decide) h

omit [Sha3] in
theorem attestationsOf_splitNode : (splitNode eligible inside outside).attestationsOf recordA =
    (splitWitnesses outside).map fun w =>
      ⟨recordA, w, (splitStakes inside outside).of w, F64.zero⟩ := rfl

omit [Sha3] in
theorem sum_splitMembers (h : inside ≤ eligible) :
    ((splitMembers eligible inside).map Prod.snd).sum = eligible := by
  show inside + (eligible - inside + 0) = eligible
  omega

omit [Sha3] in
theorem memberStake_splitNode :
    memberStake (splitMembers eligible inside) (splitNode eligible inside outside) recordA =
      inside := by
  have hX : (splitStakes inside outside).of witnessX = inside := of_splitStakes (by simp)
  unfold memberStake
  rw [attestationsOf_splitNode, splitWitnesses]
  split
  · exact hX
  · exact hX

omit [Sha3] in
theorem outsideStake_splitNode :
    outsideStake (splitMembers eligible inside) (splitNode eligible inside outside) recordA =
      outside := by
  have hZ : (splitStakes inside outside).of witnessZ = outside := of_splitStakes (by simp)
  unfold outsideStake
  rw [attestationsOf_splitNode, splitWitnesses]
  split
  · next hz => exact hz.symm
  · exact hZ

theorem committeeRecord_splitNode :
    CommitteeRecord (splitMembers eligible inside) (zoneFromLegacy 0) creatorK
      (splitNode eligible inside outside) recordA := by
  have hwitnesses : ((splitNode eligible inside outside).attestationsOf recordA).map
      Attestation.witnessHash = splitWitnesses outside := by
    rw [attestationsOf_splitNode, List.map_map]
    exact List.map_id _
  refine { creator_eq := rfl, nodup := ?_, no_self := ?_,
           zone_eq := settlementZoneFor_oneZone rfl rfl recordA, creator_stake := ?_, counted := ?_ }
  · rw [hwitnesses, splitWitnesses]
    split <;> decide
  · rw [hwitnesses, splitWitnesses]
    split <;> decide
  · intro h
    exact absurd (show creatorK ∈ [witnessX, witnessY] from h) (by decide)
  · rw [attestationsOf_splitNode]
    intro a ha hmember
    obtain ⟨w, hw, rfl⟩ := List.mem_map.mp ha
    have hXY : w ∈ [witnessX, witnessY] := hmember
    have hXZ : w ∈ [witnessX, witnessZ] := by
      unfold splitWitnesses at hw
      split at hw
      · exact List.mem_append_left [witnessZ] hw
      · exact hw
    have hX : w = witnessX := by
      rcases List.mem_pair.mp hXZ with h | h
      · exact h
      · rw [h] at hXY
        exact absurd hXY (by decide)
    have hstake : (splitStakes inside outside).of witnessX = inside := of_splitStakes (by simp)
    rw [hX, hstake]
    exact List.mem_cons_self

/-- A record that settles although the attesting member falls short of two thirds. -/
theorem not_committeeSafe (inside : ℕ) (hpos : 0 < eligible) (hle : inside ≤ eligible)
    (hquorum : quorum eligible ≤ inside + outside) (hshort : 3 * inside < 2 * eligible) :
    ¬ CommitteeSafe eligible outside := by
  intro hsafe
  have hmembers : splitMembers eligible inside ≠ [] := List.cons_ne_nil _ _
  have hsum : 0 < ((splitMembers eligible inside).map Prod.snd).sum := by
    rw [sum_splitMembers hle]
    exact hpos
  have heligible : committeeEligible (splitMembers eligible inside) creatorK
      (splitNode eligible inside outside) recordA = eligible := by
    unfold committeeEligible
    rw [sum_splitMembers hle]
    exact Nat.sub_zero eligible
  have hsettled : (splitNode eligible inside outside).isSettled recordA = true := by
    have heq : (splitNode eligible inside outside).eligibleStake recordA = eligible :=
      (committeeRecord_splitNode.eligibleStake_eq hmembers hsum).trans heligible
    rw [isSettled_iff, heq, attestingStake_eq_add (splitMembers eligible inside),
      memberStake_splitNode, outsideStake_splitNode]
    exact ⟨hpos, hquorum⟩
  have hnodup : ((splitMembers eligible inside).map Prod.fst).Nodup := by
    show [witnessX, witnessY].Nodup
    decide
  have htwo := hsafe _ _ _ _ _ hmembers hsum hnodup committeeRecord_splitNode heligible
    outsideStake_splitNode hsettled
  change 2 * eligible ≤ 3 * memberStake _ (splitNode eligible inside outside) _ at htwo
  rw [memberStake_splitNode] at htwo
  omega

end Split

/-- A settled record needs two thirds of the committee exactly if nothing is eligible, or
nobody from outside attests it and twice the eligible stake fits a `u64`. -/
theorem committeeSafe_iff (eligible outside : ℕ) :
    CommitteeSafe eligible outside ↔ eligible = 0 ∨ (outside = 0 ∧ eligible < 2 ^ 63) := by
  refine ⟨fun hsafe => ?_, committeeSafe_of⟩
  by_contra hcon
  rw [not_or] at hcon
  obtain ⟨hpos, hcon⟩ := hcon
  by_cases hlt : eligible < 2 ^ 63
  · -- one unit from outside stands in for one that is missing
    refine not_committeeSafe (quorum eligible - 1) (Nat.pos_of_ne_zero hpos) ?_ ?_ ?_ hsafe
    all_goals unfold quorum U64.max; omega
  · -- the product saturates
    refine not_committeeSafe (quorum eligible) (Nat.pos_of_ne_zero hpos) ?_ ?_ ?_ hsafe
    all_goals unfold quorum U64.max; omega

end Committees

section Sample

attribute [local instance] Smt.guardedSha3 Iteration.stored

/-- A zone with a committee of two, and a record that only a third staker attests. -/
def outvotedNode : Option AWCConsensus :=
  let s := registerStakes { AWCConsensus.new with zoneCount := 1 } 200
    [(witnessX, 50), (witnessY, 50), (witnessZ, 100)] 1
  let s := s.registerEpochCommittee (zoneFromLegacy 0) [(witnessX, 50), (witnessY, 50)]
  (s.registerCreatorStake recordA creatorK 0).1.calls 1
    [.addAttestation ⟨recordA, witnessZ, 100, F64.zero⟩]

/-- The record settles without any member of the committee. -/
theorem committee_outvoted :
    outvotedNode.map (fun s => (s.isSettled recordA,
      memberStake [(witnessX, 50), (witnessY, 50)] s recordA)) = some (true, 0) := by
  decide +kernel

end Sample

end ElaraMesh.Consensus
