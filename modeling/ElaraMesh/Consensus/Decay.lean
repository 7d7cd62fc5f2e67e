import ElaraMesh.Consensus.Quorum

/-!
# The decay of silent stake

With the decay switched on, a node takes the stake of silent stakers out of the
denominator, down to a floor above three quarters of the stake of the zone, and only then
subtracts the stake of the creator.  Nodes differ in whom they saw.  This file says exactly
when two nodes can settle two records of one creator with disjoint sets of witnesses.

## Main results

* `decayForkSafe_iff` — disjoint sets never both settle exactly if the two least quorums
  exceed the stake of the others.
-/

namespace ElaraMesh.Consensus

open Record (Str ZoneId)
open Smt (Sha3)
open AWCConsensus

section Views

variable [Sha3]

/-- Two nodes that let silent stake decay never both settle a record of one creator with
disjoint sets of witnesses. -/
def DecayForkSafe (base creatorStake divisor₁ divisor₂ : ℕ) : Prop :=
  ∀ (stakes : Stakes) (zone : ZoneId) (creator : Str) (s₁ s₂ : AWCConsensus) (r₁ r₂ : Str),
    stakes.sum = base → stakes.of creator = creatorStake →
    s₁.livenessDecayEnabled = true → s₁.livenessFloorDivisor = divisor₁ →
    s₂.livenessDecayEnabled = true → s₂.livenessFloorDivisor = divisor₂ →
    Registered stakes zone creator s₁ r₁ → Registered stakes zone creator s₂ r₂ → r₁ ≠ r₂ →
    Disjoint (s₁.attesters r₁) (s₂.attesters r₂) →
    ¬ (s₁.isSettled r₁ = true ∧ s₂.isSettled r₂ = true)

/-- The least eligible stake, but for none at all, that a view can decay to. -/
def leastEligible (base creatorStake divisor : ℕ) : ℕ :=
  max (decayFloor base divisor) (creatorStake + 1) - creatorStake

omit [Sha3] in
theorem decayFloor_le (base divisor : ℕ) : decayFloor base divisor ≤ base := min_le_right _ _

omit [Sha3] in
theorem decayedZoneStake_bounds (s : AWCConsensus) (zone : ZoneId) :
    decayFloor (s.zoneStakes.getD zone 0) s.livenessFloorDivisor ≤ s.decayedZoneStake zone ∧
      s.decayedZoneStake zone ≤ s.zoneStakes.getD zone 0 := by
  have hfloor := decayFloor_le (s.zoneStakes.getD zone 0) s.livenessFloorDivisor
  unfold decayedZoneStake
  dsimp only
  split
  · exact ⟨hfloor, le_rfl⟩
  · split
    · exact ⟨hfloor, le_rfl⟩
    · next hlive => exact ⟨le_max_right _ _, max_le (Nat.le_of_not_le hlive) hfloor⟩

/-- What it takes to settle on a node, whatever its view. -/
theorem Registered.quorum_le {stakes : Stakes} {zone : ZoneId} {creator : Str}
    {s : AWCConsensus} {r : Str} (h : Registered stakes zone creator s r)
    (hsettled : s.isSettled r = true) :
    stakes.of creator < stakes.sum ∧
      quorum (leastEligible stakes.sum (stakes.of creator) s.livenessFloorDivisor) ≤
        stakes.weight (s.attesters r) := by
  obtain ⟨hpos, hquorum⟩ := (Consensus.isSettled_iff s r).mp hsettled
  obtain ⟨hfloor, hbase⟩ := decayedZoneStake_bounds s zone
  rw [h.zone_stake] at hfloor hbase
  rw [h.eligibleStake_eq] at hpos hquorum
  refine ⟨by omega, ?_⟩
  rw [← h.attestingStake_eq]
  refine (quorum_mono ?_).trans hquorum
  unfold leastEligible
  omega

theorem decayForkSafe_of_lt {base creatorStake divisor₁ divisor₂ : ℕ}
    (h : base ≤ creatorStake ∨ base - creatorStake <
      quorum (leastEligible base creatorStake divisor₁) +
        quorum (leastEligible base creatorStake divisor₂)) :
    DecayForkSafe base creatorStake divisor₁ divisor₂ := by
  rintro stakes zone creator s₁ s₂ r₁ r₂ rfl rfl _ rfl _ rfl h₁ h₂ _ hdisj ⟨hs₁, hs₂⟩
  obtain ⟨hlt, hq₁⟩ := h₁.quorum_le hs₁
  obtain ⟨_, hq₂⟩ := h₂.quorum_le hs₂
  have hsum := stakes.weight_add_weight (s₁.attesters r₁) (s₂.attesters r₂)
  rw [Finset.disjoint_iff_inter_eq_empty.mp hdisj] at hsum
  have hnone : stakes.weight ∅ = 0 := rfl
  have hnot : creator ∉ s₁.attesters r₁ ∪ s₂.attesters r₂ := by
    rw [Finset.mem_union, not_or]
    exact ⟨h₁.creator_notMem, h₂.creator_notMem⟩
  have hunion := stakes.weight_add_le_sum hnot
  omega

/-- A witness for each side, with exactly the stake its side needs. -/
def forkParts (base creatorStake need₁ need₂ : ℕ) : List (Str × ℕ) :=
  [(creatorK, creatorStake), (witnessX, need₁), (witnessY, need₂),
    (witnessZ, base - creatorStake - need₁ - need₂)]

def forkStakes (base creatorStake need₁ need₂ : ℕ) : Stakes :=
  Stakes.ofList (forkParts base creatorStake need₁ need₂)

/-- A view in which nobody is alive, or, if that leaves nothing besides the creator's
stake, only the creator and the witness. -/
def forkView (base creatorStake divisor : ℕ) (witness : Str) : Table Str ℕ :=
  if decayFloor base divisor ≤ creatorStake then
    (AList.singleton creatorK 0).insert witness 0
  else ∅

/-- A node with such a view. -/
def forkBase (stakes : Stakes) (base creatorStake divisor : ℕ) (witness : Str) : AWCConsensus :=
  { oneZone stakes with
    livenessDecayEnabled := true
    livenessFloorDivisor := divisor
    stakerLastActive := forkView base creatorStake divisor witness }

/-- The node with a record that the witness attests. -/
def forkNode (stakes : Stakes) (base creatorStake divisor : ℕ) (witness r : Str) : AWCConsensus :=
  withRecord stakes creatorK r [witness] (forkBase stakes base creatorStake divisor witness)

section Fork

variable {base creatorStake need₁ need₂ divisor need : ℕ} {witness r : Str}

omit [Sha3] in
theorem nodup_forkParts : ((forkParts base creatorStake need₁ need₂).map Prod.fst).Nodup := by
  show [creatorK, witnessX, witnessY, witnessZ].Nodup
  decide

omit [Sha3] in
theorem of_forkStakes {id : Str} {stake : ℕ}
    (h : (id, stake) ∈ forkParts base creatorStake need₁ need₂) :
    (forkStakes base creatorStake need₁ need₂).of id = stake :=
  Stakes.of_ofList nodup_forkParts h

omit [Sha3] in
theorem sum_forkStakes (h : creatorStake + need₁ + need₂ ≤ base) :
    (forkStakes base creatorStake need₁ need₂).sum = base := by
  refine (Stakes.total_ofList nodup_forkParts fun _ => rfl).trans ?_
  simp only [forkParts, List.map_cons, List.map_nil, List.sum_cons, List.sum_nil]
  omega

omit [Sha3] in
theorem liveStake_forkNode (stakes : Stakes) (id : Str) (stake : ℕ) :
    (forkNode stakes base creatorStake divisor witness r).liveStake id stake =
      if decayFloor base divisor ≤ creatorStake ∧ (id = witness ∨ id = creatorK) then stake
      else 0 := by
  have hview : (forkNode stakes base creatorStake divisor witness r).stakerLastActive =
      forkView base creatorStake divisor witness := rfl
  have hcutoff : U64.satSub (forkNode stakes base creatorStake divisor witness r).chainTipEpoch
      (forkNode stakes base creatorStake divisor witness r).livenessWindowEpochs = 0 := Nat.zero_sub _
  unfold AWCConsensus.liveStake
  rw [hview, hcutoff]
  unfold forkView
  by_cases hfloor : decayFloor base divisor ≤ creatorStake
  · rw [if_pos hfloor, Table.lookup_insert_eq, ← AList.insert_empty, Table.lookup_insert_eq]
    by_cases h₁ : id = witness
    · simp [h₁, hfloor]
    · by_cases h₂ : id = creatorK
      · simp [h₂, hfloor]
      · simp [h₁, h₂]
  · rw [if_neg hfloor]
    simp [hfloor]

section Side

variable (hw : witness = witnessX ∧ need = need₁ ∨ witness = witnessY ∧ need = need₂)

include hw

omit [Sha3] in
theorem liveStaked_forkNode :
    (forkNode (forkStakes base creatorStake need₁ need₂) base creatorStake divisor
      witness r).liveStaked =
    if decayFloor base divisor ≤ creatorStake then creatorStake + need else 0 := by
  refine (Stakes.total_ofList nodup_forkParts fun id => ?_).trans ?_
  · rw [liveStake_forkNode]
    split <;> rfl
  · rw [List.map_congr_left fun p _ => liveStake_forkNode _ p.1 p.2]
    simp only [forkParts, List.map_cons, List.map_nil, List.sum_cons, List.sum_nil]
    by_cases hfloor : decayFloor base divisor ≤ creatorStake
    · rcases hw with ⟨rfl, rfl⟩ | ⟨rfl, rfl⟩ <;>
        simp [hfloor, show creatorK ≠ witnessX by decide, show creatorK ≠ witnessY by decide,
          show witnessY ≠ witnessX by decide, show witnessX ≠ witnessY by decide,
          show witnessX ≠ creatorK by decide, show witnessY ≠ creatorK by decide,
          show witnessZ ≠ witnessX by decide, show witnessZ ≠ witnessY by decide,
          show witnessZ ≠ creatorK by decide]
    · simp [hfloor]

theorem registered_forkNode :
    Registered (forkStakes base creatorStake need₁ need₂) (zoneFromLegacy 0) creatorK
      (forkNode (forkStakes base creatorStake need₁ need₂) base creatorStake divisor witness r) r := by
  have hcreator : creatorK ∉ [witness] := by
    rcases hw with ⟨rfl, rfl⟩ | ⟨rfl, rfl⟩ <;> decide
  exact registered_withRecord (List.nodup_singleton _) hcreator { knowsStakes_oneZone _ with } rfl rfl

variable (hsum : creatorStake + need₁ + need₂ ≤ base) (hroom : creatorStake + 1 < base)
  (hneed : need = quorum (leastEligible base creatorStake divisor))

include hsum hroom hneed

/-- The view is chosen so that the least eligible stake is left. -/
theorem eligibleStake_forkNode :
    (forkNode (forkStakes base creatorStake need₁ need₂) base creatorStake divisor witness
      r).eligibleStake r = leastEligible base creatorStake divisor := by
  have hfloorBase := decayFloor_le base divisor
  have hcreator : (forkStakes base creatorStake need₁ need₂).of creatorK = creatorStake :=
    of_forkStakes (by simp [forkParts])
  rw [(registered_forkNode hw).eligibleStake_eq, hcreator, decayedZoneStake]
  dsimp only
  rw [(registered_forkNode hw).zone_stake, sum_forkStakes hsum, liveStaked_forkNode hw,
    show (forkNode (forkStakes base creatorStake need₁ need₂) base creatorStake divisor witness
      r).livenessFloorDivisor = divisor from rfl,
    show (forkNode (forkStakes base creatorStake need₁ need₂) base creatorStake divisor witness
      r).livenessDecayEnabled = true from rfl]
  unfold leastEligible at hneed ⊢
  by_cases hfloor : decayFloor base divisor ≤ creatorStake
  · have hone : need = 1 := by
      rw [hneed, max_eq_right (by omega), Nat.add_sub_cancel_left]
      rfl
    rw [if_pos hfloor, hone, if_neg (by simp; omega), if_neg (by omega)]
    omega
  · rw [if_neg hfloor, if_neg (by simp; omega), if_neg (by omega)]
    omega

/-- A side that has a witness with just the quorum settles in its view. -/
theorem isSettled_forkNode :
    (forkNode (forkStakes base creatorStake need₁ need₂) base creatorStake divisor witness
      r).isSettled r = true := by
  have hW : (forkStakes base creatorStake need₁ need₂).of witness = need := by
    refine of_forkStakes ?_
    rcases hw with ⟨rfl, rfl⟩ | ⟨rfl, rfl⟩ <;> simp [forkParts]
  have hattesting : (forkNode (forkStakes base creatorStake need₁ need₂) base creatorStake divisor
      witness r).attestingStake r = need := by
    rw [(registered_forkNode hw).attestingStake_eq, forkNode, attesters_withRecord, if_pos rfl, ← hW]
    exact Finset.sum_singleton _ _
  rw [Consensus.isSettled_iff, eligibleStake_forkNode hw hsum hroom hneed, hattesting, hneed]
  refine ⟨?_, le_rfl⟩
  unfold leastEligible
  omega

end Side

end Fork

/-- Disjoint sets can settle on two nodes with different views as soon as the eligible
stake holds both quorums. -/
theorem not_decayForkSafe {base creatorStake divisor₁ divisor₂ : ℕ}
    (h : creatorStake + quorum (leastEligible base creatorStake divisor₁) +
      quorum (leastEligible base creatorStake divisor₂) ≤ base) :
    ¬ DecayForkSafe base creatorStake divisor₁ divisor₂ := by
  intro hsafe
  have hpos : ∀ divisor, 0 < quorum (leastEligible base creatorStake divisor) := by
    intro divisor
    refine quorum_pos ?_
    unfold leastEligible
    omega
  have hroom : creatorStake + 1 < base := by
    have h₁ := hpos divisor₁
    have h₂ := hpos divisor₂
    omega
  refine hsafe (forkStakes _ _ _ _) _ _ (forkNode _ _ _ divisor₁ witnessX recordA)
    (forkNode _ _ _ divisor₂ witnessY recordB) _ _ (sum_forkStakes h)
    (of_forkStakes (by simp [forkParts])) rfl rfl rfl rfl
    (registered_forkNode (Or.inl ⟨rfl, rfl⟩)) (registered_forkNode (Or.inr ⟨rfl, rfl⟩))
    (by decide) ?_ ⟨isSettled_forkNode (Or.inl ⟨rfl, rfl⟩) h hroom rfl,
      isSettled_forkNode (Or.inr ⟨rfl, rfl⟩) h hroom rfl⟩
  unfold forkNode
  rw [attesters_withRecord, attesters_withRecord, if_pos rfl, if_pos rfl]
  decide

/-- Two nodes with different views never settle disjoint sets exactly if there is nothing
eligible, or less than the two least quorums take together. -/
theorem decayForkSafe_iff (base creatorStake divisor₁ divisor₂ : ℕ) :
    DecayForkSafe base creatorStake divisor₁ divisor₂ ↔
      base ≤ creatorStake ∨ base - creatorStake <
        quorum (leastEligible base creatorStake divisor₁) +
          quorum (leastEligible base creatorStake divisor₂) := by
  refine ⟨fun hsafe => ?_, decayForkSafe_of_lt⟩
  by_contra hcon
  refine not_decayForkSafe ?_ hsafe
  omega

end Views

section Sample

attribute [local instance] Smt.guardedSha3 Iteration.stored

/-- A node on which one witness attested a record of the creator, a thousand epochs ago. -/
def staleNode (r witness : Str) : Option AWCConsensus :=
  let s := registerStakes { AWCConsensus.new with zoneCount := 1 } 100
    [(creatorK, 40), (witnessX, 30), (witnessY, 30)] 1
  let s := ((s.configureLiveness true 720 10).registerCreatorStake r creatorK 40).1
  (s.calls 1 [.addAttestation ⟨r, witness, 30, F64.zero⟩]).map (·.noteChainTip 1000)

/-- Two nodes settle two records of the creator with one witness each. -/
theorem disjoint_witnesses_settle :
    (staleNode recordA witnessX).map (fun s => (s.isSettled recordA, s.attesters recordA)) =
        some (true, {witnessX}) ∧
      (staleNode recordB witnessY).map (fun s => (s.isSettled recordB, s.attesters recordB)) =
        some (true, {witnessY}) := by
  decide +kernel

end Sample

end ElaraMesh.Consensus
