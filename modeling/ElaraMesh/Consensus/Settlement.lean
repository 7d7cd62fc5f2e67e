import ElaraMesh.Consensus.State

/-!
# Settlement

A record or a seal is settled when two thirds of the eligible stake attest it.  The
eligible stake is that of the zone's committee, or else of the zone, without the stake of
the creator; silent stake may age out of it.  The diverse test discounts the stake of
witnesses that look alike, in fixed-point arithmetic scaled by `settlementQ`.

A `u64` or `u128` is a natural number.  The saturating operations are spelled out; a sum
of stakes is the plain sum, since the stakes are parts of a supply that fits a `u64`.

## Main definitions

* `settlementDenominator`, `liveStaked`, `creatorStakeExcludedFromDenominator`.
* `isSettled` — two thirds of the raw stake.
* `effectiveStakeQ`, `isSettledDiverse` — two thirds of the discounted stake.
* `isSealSettled`, `isGlobalSealSettled` — the same tests for seals.
* `registerEpochCommittee`, `registerStakes`, `configureLiveness`, `noteChainTip` — the
  calls that set what the tests read.
-/

namespace ElaraMesh.Consensus

open Record (Str ZoneId)
open Smt (Sha3)

/-! ### Constants -/

/-- The scale of the fixed-point arithmetic. -/
def settlementQ : ℕ := 1000000000

/-- The weight of a shared organization. -/
def alphaQ : ℕ := 500000000

/-- The weight of a shared subnet. -/
def betaQ : ℕ := 300000000

/-- The weight of a shared region. -/
def gammaQ : ℕ := 200000000

/-- Below this number of regions a shared region carries no signal. -/
def minGeoBuckets : ℕ := 2

/-- The number of witnesses at which a shared region has its full weight. -/
def gammaFullWitnesses : ℕ := 12

/-- The weight of a shared region, rising with the number of witnesses. -/
def gammaEffectiveScaledQ (witnessCount bucketCount : ℕ) : ℕ :=
  if bucketCount < minGeoBuckets then 0
  else if gammaFullWitnesses ≤ witnessCount then gammaQ
  else if witnessCount ≤ minGeoBuckets then 0
  else
    let numer := gammaQ * (witnessCount - minGeoBuckets)
    let denom := gammaFullWitnesses - minGeoBuckets
    (numer + denom / 2) / denom

/-- A region: a self-reported zone, or an observed autonomous system. -/
inductive Bucket where
  | zone (name : Str)
  | asn (number : ℕ)
  deriving DecidableEq

namespace AWCConsensus

/-! ### What the tests read -/

variable (s : AWCConsensus)

def registerEpochCommittee (zone : ZoneId) (members : List (Str × ℕ)) :
    AWCConsensus :=
  if members = [] then
    { s with
      committeeStakes := s.committeeStakes.erase zone
      committeeMembers := s.committeeMembers.erase zone }
  else
    let set := (members.map Prod.fst).toFinset
    let prevSet := s.committeeMembers.lookup zone
    { s with
      committeeStakes := s.committeeStakes.insert zone (members.map Prod.snd).sum
      committeeMembers := s.committeeMembers.insert zone set
      committeeRotationsTotal := s.committeeRotationsTotal + if prevSet = some set then 0 else 1 }

/-- Configure the decay of silent stake. -/
def configureLiveness (enabled : Bool) (windowEpochs floorDivisor : ℕ) :
    AWCConsensus :=
  { s with
    livenessDecayEnabled := enabled
    livenessWindowEpochs := max windowEpochs 1
    livenessFloorDivisor := max floorDivisor 1 }

/-- Note the tip of the chain; it never goes back. -/
def noteChainTip (epoch : ℕ) : AWCConsensus :=
  if s.chainTipEpoch < epoch then { s with chainTipEpoch := epoch } else s

/-- Give every zone the total stake, and note the stake of every staker. -/
def registerStakes (totalStaked : ℕ) (stakers : List (Str × ℕ)) (zoneCount : ℕ) : AWCConsensus :=
  let zones := List.range (max zoneCount 1)
  { s with
    zoneStakes :=
      if 0 < totalStaked then
        zones.foldl (fun t z => t.insert (zoneFromLegacy z) totalStaked) ∅
      else ∅
    stakerStakes :=
      stakers.foldl (fun t p => if 0 < p.2 then t.insert p.1 p.2 else t) ∅ }

/-- Register what a witness says about itself. -/
def registerProfile (witnessHash : Str) (profile : WitnessProfile) :
    AWCConsensus :=
  { s with profiles := s.profiles.insert witnessHash profile }

/-! ### The denominator -/

/-- The stake of a staker, if it attested within the trailing window. -/
def liveStake (id : Str) (stake : ℕ) : ℕ :=
  let cutoff := U64.satSub s.chainTipEpoch s.livenessWindowEpochs
  match s.stakerLastActive.lookup id with
  | some seen => if cutoff ≤ seen then stake else 0
  | none => 0

/-- The stake of the stakers that attested within the trailing window. -/
def liveStaked : ℕ := s.stakerStakes.total s.liveStake

/-- The least value silent stake can age the stake of a zone to. -/
def decayFloor (base divisor : ℕ) : ℕ :=
  let forkSafeFloor := U64.satMul base 3 / 4 + 1
  let configuredFloor := base / max divisor 1
  min (max configuredFloor forkSafeFloor) base

/-- The stake of a zone, without the stake that aged out. -/
def decayedZoneStake (zone : ZoneId) : ℕ :=
  let base := s.zoneStakes.getD zone 0
  if ¬ s.livenessDecayEnabled ∨ base = 0 then base
  else
    let live := s.liveStaked
    if base ≤ live then base else max live (decayFloor base s.livenessFloorDivisor)

/-- The settlement denominator of a zone: the stake of its committee, or else that of
the zone. -/
def settlementDenominator (zone : ZoneId) : ℕ :=
  match s.committeeStakes.lookup zone with
  | some stake => if 0 < stake then stake else s.decayedZoneStake zone
  | none => s.decayedZoneStake zone

/-- The creator's part of the denominator: none of it if a committee stands without the
creator. -/
def creatorStakeExcludedFromDenominator (recordId : Str) (zone : ZoneId) : ℕ :=
  let creatorStake := s.creatorStakes.getD recordId 0
  if creatorStake = 0 then 0
  else
    match s.committeeMembers.lookup zone with
    | some members =>
      if members = ∅ then creatorStake
      else
        match s.creatorIdentity.lookup recordId with
        | some creator => if creator ∈ members then creatorStake else 0
        | none => 0
    | none => creatorStake

def eligibleStake [Sha3] (recordId : Str) : ℕ :=
  let zone := s.settlementZoneFor recordId
  U64.satSub (s.settlementDenominator zone) (s.creatorStakeExcludedFromDenominator recordId zone)

/-! ### The raw test -/

def attestingStake (recordId : Str) : ℕ :=
  ((s.attestationsOf recordId).map Attestation.stake).sum

/-- Two thirds, with saturating products. -/
def twoThirdsMet (attesting eligible : ℕ) : Bool :=
  U64.satMul eligible 2 ≤ U64.satMul attesting 3

/-- Do two thirds of the eligible stake attest the record? -/
def isSettled [Sha3] (recordId : Str) : Bool :=
  if s.eligibleStake recordId = 0 then false
  else twoThirdsMet (s.attestingStake recordId) (s.eligibleStake recordId)

/-! ### The diverse test -/

def bucketOf (witness : Str) : Option Bucket :=
  let derived :=
    match s.derivedGeo.lookup witness with
    | some geo => if geo.asn = unknownAsn then none else some (.asn geo.asn)
    | none => none
  match s.profiles.lookup witness with
  | some profile => if profile.geoZone = Str.empty then derived else some (.zone profile.geoZone)
  | none => derived

/-- The number of distinct regions of some witnesses. -/
def bucketCount (witnessSet : List Str) : ℕ :=
  (witnessSet.filterMap s.bucketOf).toFinset.card

/-- The weight of a shared region among some witnesses. -/
def gammaEffectiveQ (witnessSet : List Str) : ℕ :=
  gammaEffectiveScaledQ witnessSet.length (s.bucketCount witnessSet)

/-- How much two witnesses look alike. -/
def correlationWeightedQ (a b : Str) (gamma : ℕ) : ℕ :=
  match s.profiles.lookup a, s.profiles.lookup b with
  | some pa, some pb =>
    let sameOrg := pa.organization == pb.organization
    let subnetSelf := pa.subnet != Str.empty && pa.subnet == pb.subnet
    let zoneSelf := pa.geoZone != Str.empty && pa.geoZone == pb.geoZone
    let geos := (s.derivedGeo.lookup a, s.derivedGeo.lookup b)
    let subnetDerived := match geos with
      | (some ga, some gb) => ga.ipPrefix16 != (0, 0) && ga.ipPrefix16 == gb.ipPrefix16
      | _ => false
    let zoneDerived := match geos with
      | (some ga, some gb) => ga.asn != unknownAsn && ga.asn == gb.asn
      | _ => false
    (if sameOrg then alphaQ else 0) + (if subnetSelf || subnetDerived then betaQ else 0)
      + (if zoneSelf || zoneDerived then gamma else 0)
  | _, _ => alphaQ + betaQ

/-- The share of a witness's stake that counts. -/
def independenceQ (witness : Str) (witnessSet : List Str) (gamma : ℕ) : ℕ :=
  let others := witnessSet.filter (· ≠ witness)
  let corrSum := (others.map fun m => s.correlationWeightedQ witness m gamma).foldl U128.satAdd 0
  settlementQ * settlementQ / (settlementQ + corrSum)

/-- The discounted stake of some witnesses, added up in the order of their hashes. -/
def effectiveStakeQ (witnesses : List (Str × ℕ)) : ℕ :=
  let witnessSet := witnesses.map Prod.fst
  let gamma := s.gammaEffectiveQ witnessSet
  let sorted := witnesses.insertionSort fun a b => a.1 ≤ b.1
  (sorted.map fun w => U128.satMul w.2 (s.independenceQ w.1 witnessSet gamma)).foldl U128.satAdd 0

/-- Two thirds of the eligible stake, in the scale of the discounted stake. -/
def diverseThresholdMetQ (effQ eligible : ℕ) : Bool :=
  U128.satMul (U128.satMul eligible 2) settlementQ ≤ U128.satMul effQ 3

/-- Do two thirds of the eligible stake attest the record, after the discount? -/
def isSettledDiverse [Sha3] (recordId : Str) : Bool :=
  if s.eligibleStake recordId = 0 then false
  else
    let atts := s.attestationsOf recordId
    if atts = [] then false
    else
      let witnesses := atts.map fun a => (a.witnessHash, a.stake)
      diverseThresholdMetQ (s.effectiveStakeQ witnesses) (s.eligibleStake recordId)

/-! ### Seals -/

def sealAttestationsOf (sealId : Str) : List SealAttestation :=
  s.sealAttestations.getD sealId []

/-- Do two thirds of the stake outside of the stuck zone attest the seal? -/
def isGlobalSealSettled (sealId : Str) (stuckZone : ZoneId) : Bool :=
  let others := s.zoneStakes.entries.filter fun e => e.1 ≠ stuckZone
  let denominator := (others.map Sigma.snd).foldl max 0
  let nonStuck := (s.sealAttestationsOf sealId).filter fun a => a.zone ≠ stuckZone
  if s.sealAttestationsOf sealId = [] then false
  else if denominator = 0 then false
  else if nonStuck = [] then false
  else
    diverseThresholdMetQ (s.effectiveStakeQ (nonStuck.map fun a => (a.witnessHash, a.stake)))
      denominator

/-- Do two thirds of the stake of its zone attest the seal? -/
def isSealSettled (sealId : Str) : Bool :=
  match s.globalSealStuckZone.lookup sealId with
  | some stuckZone => s.isGlobalSealSettled sealId stuckZone
  | none =>
    match s.sealAttestationsOf sealId with
    | [] => false
    | first :: rest =>
      -- the zone is that of the first attestation
      let totalZoneStake := s.settlementDenominator first.zone
      let eligible := U64.satSub totalZoneStake (s.creatorStakes.getD sealId 0)
      if eligible = 0 then false
      else
        let witnesses := (first :: rest).map fun a => (a.witnessHash, a.stake)
        diverseThresholdMetQ (s.effectiveStakeQ witnesses) eligible

end AWCConsensus

end ElaraMesh.Consensus
