import ElaraMesh.Lib.F64
import ElaraMesh.Lib.Table
import ElaraMesh.Lib.U64
import ElaraMesh.Record.Record
import ElaraMesh.Smt.Hash

/-!
# The consensus engine: its state

`AWCConsensus` of `src/network/consensus.rs` keeps the attestations of records and of
epoch seals, what is known about the witnesses, and the confirmation level of every
record.  This file has its data and the routes from a record to its zone.

Left out of the state are the latency histograms with the clocks that feed them, the
finality signatures of seals, the abort collections and the storage behind
`staker_last_active`: no settlement test and no confirmation level reads them.

## Main definitions

* `ConfirmationLevel`, `Attestation`, `SealAttestation`, `WitnessProfile`.
* `AWCConsensus` — the state, `AWCConsensus.new` the initial one.
* `zoneForRecord`, `AWCConsensus.settlementZoneFor` — the zone a record settles in.
-/

namespace ElaraMesh.Consensus

open Record (Str ZoneId)
open Smt (Sha3 sha3_256)

/-- How thoroughly a record has been witnessed. -/
inductive ConfirmationLevel where
  | pending
  | sealed
  | finalized
  | anchored
  deriving DecidableEq, Repr

namespace ConfirmationLevel

def toNat : ConfirmationLevel → ℕ
  | pending => 0
  | sealed => 1
  | finalized => 2
  | anchored => 3

theorem toNat_injective : Function.Injective toNat := by
  intro a b h
  cases a <;> cases b <;> first | rfl | exact absurd h (by decide)

instance : LinearOrder ConfirmationLevel := LinearOrder.lift' toNat toNat_injective

/-- Is a record of this level beyond recall? -/
def isFinal : ConfirmationLevel → Bool
  | finalized | anchored => true
  | pending | sealed => false

theorem isFinal_iff {l : ConfirmationLevel} : l.isFinal ↔ finalized ≤ l := by
  cases l <;> decide

end ConfirmationLevel

/-- A witness's attestation of a record. -/
structure Attestation where
  recordId : Str
  witnessHash : Str
  stake : ℕ
  timestamp : F64
  deriving DecidableEq

/-- A witness's attestation of an epoch seal. -/
structure SealAttestation where
  sealId : Str
  zone : ZoneId
  epochNumber : ℕ
  witnessHash : Str
  stake : ℕ
  timestamp : F64
  deriving DecidableEq

/-- What a witness says about itself. -/
structure WitnessProfile where
  organization : Str
  subnet : Str
  geoZone : Str
  deriving DecidableEq

/-- What was observed about a witness's connection. -/
structure DerivedWitnessGeo where
  ipPrefix16 : UInt8 × UInt8
  asn : ℕ
  deriving DecidableEq

/-- The number of an unknown autonomous system. -/
def unknownAsn : ℕ := 0

def maxAttestationRecords : ℕ := 50000

def maxSealAttestations : ℕ := 5000

/-- Cap on the finality events that wait for the ledger. -/
def maxFinalizationQueue : ℕ := 65536

/-- Cap on the sealed events that wait for subscribers. -/
def maxSealedQueue : ℕ := 65536

structure AWCConsensus where
  /-- The number of zones, a value shared by the whole process. -/
  zoneCount : ℕ
  attestations : Table Str (List Attestation)
  zoneStakes : Table ZoneId ℕ
  profiles : Table Str WitnessProfile
  derivedGeo : Table Str DerivedWitnessGeo
  confirmationLevels : Table Str ConfirmationLevel
  anchored : Finset Str
  sealAttestations : Table Str (List SealAttestation)
  sealRecordIds : Table Str (List Str)
  sealEpoch : Table Str (ℕ × ZoneId)
  recordToSeal : Table Str Str
  sealFinalizedAt : Table Str F64
  sealAttestationAddTotal : ℕ
  sealSettledTrueTotal : ℕ
  globalSealStuckZone : Table Str ZoneId
  creatorStakes : Table Str ℕ
  creatorIdentity : Table Str Str
  rotationZoneOverrides : Table Str Str
  selfAttestationsRejected : ℕ
  crossZoneParents : Table Str (List Str)
  crossZoneBoostCount : ℕ
  crossZoneRegisteredTotal : ℕ
  evictionsTotal : ℕ
  evictionsNearSettlement : ℕ
  committeeStakes : Table ZoneId ℕ
  committeeMembers : Table ZoneId (Finset Str)
  committeeRotationsTotal : ℕ
  livenessDecayEnabled : Bool
  livenessWindowEpochs : ℕ
  livenessFloorDivisor : ℕ
  chainTipEpoch : ℕ
  stakerStakes : Table Str ℕ
  stakerLastActive : Table Str ℕ
  finalizationQueue : List Str
  finalizationQueueOverflowTotal : ℕ
  finalizationQueueEnqueuedTotal : ℕ
  newlySealedQueue : List (Str × ℕ)
  newlySealedQueueOverflowTotal : ℕ
  newlySealedQueueEnqueuedTotal : ℕ

def zoneFromLegacy (n : ℕ) : ZoneId := ⟨Framing.decimal n⟩

section Route

variable [Sha3]

/-- The zone of a record among a number of zones, by the hash of its id. -/
def forRecordDynamic (recordId : Str) (zoneCount : ℕ) : ZoneId :=
  let hash := sha3_256 recordId.bytes
  zoneFromLegacy (Framing.ofBigEndian (hash.data.take 8) % max zoneCount 1)

namespace AWCConsensus

/-- The zone of a record under the current number of zones. -/
def zoneForRecord (s : AWCConsensus) (recordId : Str) : ZoneId :=
  forRecordDynamic recordId s.zoneCount

/-- The zone whose stake a record is settled against: that of its lineage if it is a
key rotation. -/
def settlementZoneFor (s : AWCConsensus) (recordId : Str) : ZoneId :=
  match s.rotationZoneOverrides.lookup recordId with
  | some lineageId => s.zoneForRecord lineageId
  | none => s.zoneForRecord recordId

end AWCConsensus

end Route

namespace AWCConsensus

def new : AWCConsensus where
  zoneCount := 4
  attestations := ∅
  zoneStakes := ∅
  profiles := ∅
  derivedGeo := ∅
  confirmationLevels := ∅
  anchored := ∅
  sealAttestations := ∅
  sealRecordIds := ∅
  sealEpoch := ∅
  recordToSeal := ∅
  sealFinalizedAt := ∅
  sealAttestationAddTotal := 0
  sealSettledTrueTotal := 0
  globalSealStuckZone := ∅
  creatorStakes := ∅
  creatorIdentity := ∅
  rotationZoneOverrides := ∅
  selfAttestationsRejected := 0
  crossZoneParents := ∅
  crossZoneBoostCount := 0
  crossZoneRegisteredTotal := 0
  evictionsTotal := 0
  evictionsNearSettlement := 0
  committeeStakes := ∅
  committeeMembers := ∅
  committeeRotationsTotal := 0
  livenessDecayEnabled := false
  livenessWindowEpochs := 720
  livenessFloorDivisor := 10
  chainTipEpoch := 0
  stakerStakes := ∅
  stakerLastActive := ∅
  finalizationQueue := []
  finalizationQueueOverflowTotal := 0
  finalizationQueueEnqueuedTotal := 0
  newlySealedQueue := []
  newlySealedQueueOverflowTotal := 0
  newlySealedQueueEnqueuedTotal := 0

def confirmationLevel (s : AWCConsensus) (recordId : Str) : ConfirmationLevel :=
  s.confirmationLevels.getD recordId .pending

def attestationsOf (s : AWCConsensus) (recordId : Str) : List Attestation :=
  s.attestations.getD recordId []

end AWCConsensus

end ElaraMesh.Consensus
