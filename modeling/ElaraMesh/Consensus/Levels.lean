import ElaraMesh.Consensus.Settlement
import ElaraMesh.Lib.DisjointSets

/-!
# Confirmation levels

Every accepted attestation makes the engine recompute the level of its record, and a
record that becomes final makes it recompute the records that name it as a parent in
another zone.  The recursion of `recompute_confirmation` is an agenda here: a `Task` is
performed, and the tasks it calls for are put in front of those that wait.

## Main definitions

* `countDistinctClusters`, `evaluatedLevel` — the level the attestations of a record give.
* `visit` — the body of `recompute_confirmation` up to its recursive calls.
* `Task`, `perform`, `drain` — the recursion.
* `Call`, `start`, `call`, `calls` — the public calls.
-/

namespace ElaraMesh.Consensus

open Record (Str)
open Smt (Sha3)

/-- The least number of witnesses of a sealed record. -/
def attestedMinWitnesses : ℕ := 1

/-- The least number of witnesses of a final record. -/
def confirmedMinWitnesses : ℕ := 3

/-- The least number of witness clusters of a final record. -/
def confirmedMinClusters : ℕ := 3

/-- Witnesses that attest within this many seconds count as one. -/
def timingClusterThresholdSecs : F64 := F64.half

/-- How long a final seal must stand to be anchored. -/
def challengeWindowSecs : F64 := F64.ofNat 86400

/-- Were two attestations made at almost the same time? -/
def closeInTime (a b : Attestation) : Bool :=
  (a.timestamp.sub b.timestamp).abs.le timingClusterThresholdSecs

namespace AWCConsensus

/-! ### The level of a record -/

variable (s : AWCConsensus)

/-- Do the witnesses of two attestations share organization and subnet? -/
def sameProfile (a b : Attestation) : Bool :=
  match s.profiles.lookup a.witnessHash, s.profiles.lookup b.witnessHash with
  | some p, some q => p.organization == q.organization && p.subnet == q.subnet
  | _, _ => false

/-- The number of clusters of witnesses, joined first by profile and then by time. -/
def countDistinctClusters (atts : List Attestation) : ℕ :=
  DisjointSets.clusterCount [s.sameProfile, closeInTime] atts

/-- Has the record parents in other zones, and are all of them final? -/
def crossZoneParentsFinalized (recordId : Str) : Bool :=
  match s.crossZoneParents.lookup recordId with
  | some parents => parents ≠ [] && parents.all fun p => (s.confirmationLevel p).isFinal
  | none => false

/-- Are there too few organizations for the diverse test? -/
def smallNetwork : Bool :=
  (s.profiles.values.map WitnessProfile.organization).toFinset.card < 3

section Evaluate

variable [Sha3]

variable (s : AWCConsensus)

/-- Is the stake behind the record enough? -/
def settlementOk (recordId : Str) : Bool :=
  s.isSettledDiverse recordId || (s.isSettled recordId && s.smallNetwork)

/-- Do witnesses, clusters and stake make the record final? -/
def confirms (recordId : Str) : Bool :=
  let atts := s.attestationsOf recordId
  -- a record all of whose parents in other zones are final needs one cluster
  let minClusters := if s.crossZoneParentsFinalized recordId then 1 else confirmedMinClusters
  confirmedMinWitnesses ≤ atts.length && minClusters ≤ s.countDistinctClusters atts
    && s.settlementOk recordId

/-- The level that the attestations of a record give. -/
def evaluatedLevel (recordId : Str) : ConfirmationLevel :=
  if s.confirms recordId then .finalized
  else if attestedMinWitnesses ≤ (s.attestationsOf recordId).length then .sealed
  else .pending

end Evaluate

def setLevel (recordId : Str) (level : ConfirmationLevel) : AWCConsensus :=
  { s with confirmationLevels := s.confirmationLevels.insert recordId level }

/-- Announce a final record; a full queue drops the announcement. -/
def enqueueFinalized (recordId : Str) : AWCConsensus :=
  if maxFinalizationQueue ≤ s.finalizationQueue.length then
    { s with finalizationQueueOverflowTotal := s.finalizationQueueOverflowTotal + 1 }
  else
    { s with
      finalizationQueue := s.finalizationQueue ++ [recordId]
      finalizationQueueEnqueuedTotal := s.finalizationQueueEnqueuedTotal + 1 }

/-- Announce a sealed record; a full queue drops the announcement. -/
def enqueueSealed (recordId : Str) (witnessCount : ℕ) : AWCConsensus :=
  if maxSealedQueue ≤ s.newlySealedQueue.length then
    { s with newlySealedQueueOverflowTotal := s.newlySealedQueueOverflowTotal + 1 }
  else
    { s with
      newlySealedQueue := s.newlySealedQueue ++ [(recordId, witnessCount)]
      newlySealedQueueEnqueuedTotal := s.newlySealedQueueEnqueuedTotal + 1 }

/-- The records that name this one as a parent in another zone. -/
def children [Iteration] (recordId : Str) : List Str :=
  ((Iteration.walk s.crossZoneParents).filter fun e => recordId ∈ e.2).map Prod.fst

/-! ### The recursion -/

/-- Announce a record that was below sealed and is not any more. -/
def announceSealed (suppressEvents : Bool) (recordId : Str)
    (oldLevel level : ConfirmationLevel) : AWCConsensus :=
  if .sealed ≤ level ∧ oldLevel < .sealed ∧ ¬ suppressEvents then
    s.enqueueSealed recordId (s.attestationsOf recordId).length
  else s

/-- The announcements that follow a level written over an old one. -/
def announce (suppressEvents : Bool) (recordId : Str)
    (oldLevel level : ConfirmationLevel) : AWCConsensus :=
  let s := s.announceSealed suppressEvents recordId oldLevel level
  if level.isFinal ∧ ¬ oldLevel.isFinal ∧ ¬ suppressEvents then s.enqueueFinalized recordId else s

/-- Count a record that the finality of its parents helped. -/
def countBoost (recordId : Str) (level : ConfirmationLevel) : AWCConsensus :=
  if level = .finalized ∧ s.crossZoneParentsFinalized recordId then
    { s with crossZoneBoostCount := s.crossZoneBoostCount + 1 }
  else s

section Visit

variable [Sha3] [Iteration]

/-- `recompute_confirmation` up to its recursive calls: the state, and the records to
recompute next. -/
def visit (s : AWCConsensus) (suppressEvents : Bool) (recordId : Str) : AWCConsensus × List Str :=
  if s.attestationsOf recordId = [] then (s.setLevel recordId .pending, [])
  else if recordId ∈ s.anchored then (s.setLevel recordId .anchored, [])
  else
    let level := s.evaluatedLevel recordId
    let oldLevel := s.confirmationLevel recordId
    let s := (s.countBoost recordId level).setLevel recordId level
    (s.announce suppressEvents recordId oldLevel level,
      if level.isFinal ∧ ¬ oldLevel.isFinal then s.children recordId else [])

/-- A piece of work that calls for more work. -/
inductive Task where
  | recompute (recordId : Str) (suppressEvents : Bool)
  | force (recordId : Str)
  deriving DecidableEq

/-- Perform a task: the state, and the tasks to perform before any other. -/
def perform (s : AWCConsensus) : Task → AWCConsensus × List Task
  | .recompute recordId suppressEvents =>
    ((s.visit suppressEvents recordId).1,
      (s.visit suppressEvents recordId).2.map fun child => .recompute child suppressEvents)
  | .force recordId =>
    -- `force_finalized`: nothing is done to a record that is final
    if (s.confirmationLevel recordId).isFinal then (s, [])
    else
      ((s.setLevel recordId .finalized).enqueueFinalized recordId,
        (s.children recordId).map fun child => .recompute child false)

/-- Perform all tasks, with fuel for so many of them. -/
def drain : ℕ → AWCConsensus → List Task → Option AWCConsensus
  | _, s, [] => some s
  | 0, _, _ :: _ => none
  | fuel + 1, s, task :: tasks => drain fuel (s.perform task).1 ((s.perform task).2 ++ tasks)

end Visit

/-! ### Eviction -/

def newest (timestamps : List F64) : F64 := timestamps.foldl F64.max F64.zero

/-- Forget the records with the fewest attestations, the oldest first. -/
def evictOldestAttestations [Iteration] (count : ℕ) : AWCConsensus :=
  let entries := (Iteration.walk s.attestations).map fun e =>
    (e.1, e.2.length, (newest (e.2.map Attestation.timestamp)).totalKey)
  let sorted := entries.insertionSort fun a b => a.2.1 < b.2.1 ∨ (a.2.1 = b.2.1 ∧ a.2.2 ≤ b.2.2)
  (sorted.take count).foldl (fun s e =>
    { s with
      attestations := s.attestations.erase e.1
      confirmationLevels := s.confirmationLevels.erase e.1
      creatorStakes := s.creatorStakes.erase e.1
      creatorIdentity := s.creatorIdentity.erase e.1
      crossZoneParents := s.crossZoneParents.erase e.1
      evictionsTotal := s.evictionsTotal + 1
      evictionsNearSettlement := s.evictionsNearSettlement + if 2 ≤ e.2.1 then 1 else 0 }) s

def evictOldestSealAttestations [Iteration] (count : ℕ) : AWCConsensus :=
  let entries := (Iteration.walk s.sealAttestations).map fun e =>
    (e.1, (newest (e.2.map SealAttestation.timestamp)).totalKey)
  let sorted := entries.insertionSort fun a b => a.2 ≤ b.2
  (sorted.take count).foldl (fun s e =>
    { s with
      sealAttestations := s.sealAttestations.erase e.1
      sealRecordIds := s.sealRecordIds.erase e.1
      recordToSeal := (s.sealRecordIds.getD e.1 []).foldl (fun t r => t.erase r) s.recordToSeal
      sealEpoch := s.sealEpoch.erase e.1
      sealFinalizedAt := s.sealFinalizedAt.erase e.1
      globalSealStuckZone := s.globalSealStuckZone.erase e.1 }) s

/-! ### Calls -/

/-- Count an attestation of a creator for its own record. -/
def rejectSelf (n : ℕ) : AWCConsensus :=
  { s with selfAttestationsRejected := U64.satAdd s.selfAttestationsRejected n }

/-- Overwrite the stake of the first attestation by a witness. -/
def refreshStake (witnessHash : Str) (stake : ℕ) : List Attestation → List Attestation
  | [] => []
  | a :: rest =>
    if a.witnessHash = witnessHash then { a with stake := stake } :: rest
    else a :: refreshStake witnessHash stake rest

/-- Note that a witness is alive at the tip of the chain. -/
def stampLiveness (witnessHash : Str) : AWCConsensus :=
  { s with
    stakerLastActive := s.stakerLastActive.insert witnessHash
      (max s.chainTipEpoch (s.stakerLastActive.getD witnessHash 0)) }

/-- `add_attestation` below the memory budget. -/
def admitAttestation (a : Attestation) : AWCConsensus × List Task :=
  if s.creatorIdentity.lookup a.recordId = some a.witnessHash then (s.rejectSelf 1, [])
  else
    let entry := s.attestationsOf a.recordId
    if entry.any fun b => b.witnessHash = a.witnessHash then
      -- a known witness: only its stake is taken over, and no level is recomputed
      ({ s with attestations :=
          s.attestations.insert a.recordId (refreshStake a.witnessHash a.stake entry) }, [])
    else
      let s := s.stampLiveness a.witnessHash
      ({ s with attestations := s.attestations.insert a.recordId (entry ++ [a]) },
        [.recompute a.recordId false])

/-- Add an attestation of a record, up to the recomputation of its level. -/
def addAttestation [Iteration] (a : Attestation) : AWCConsensus × List Task :=
  if maxAttestationRecords ≤ s.attestations.entries.length then
    (s.evictOldestAttestations (maxAttestationRecords / 10)).admitAttestation a
  else s.admitAttestation a

/-- Register the creator of a record and its stake.  Attestations by the creator that
came before are dropped. -/
def registerCreatorStake (recordId creatorHash : Str) (creatorStake : ℕ) :
    AWCConsensus × List Task :=
  let firstTime := s.creatorIdentity.lookup recordId = none
  let s := { s with
    creatorIdentity := s.creatorIdentity.insert recordId creatorHash
    creatorStakes :=
      if 0 < creatorStake then s.creatorStakes.insert recordId creatorStake
      else s.creatorStakes.erase recordId }
  if firstTime then
    let atts := s.attestationsOf recordId
    let satts := s.sealAttestationsOf recordId
    let keptAtts := atts.filter fun a => a.witnessHash ≠ creatorHash
    let keptSatts := satts.filter fun a => a.witnessHash ≠ creatorHash
    let purged := (atts.length - keptAtts.length) + (satts.length - keptSatts.length)
    if 0 < purged then
      (rejectSelf { s with
        attestations :=
          if s.attestations.lookup recordId = none then s.attestations
          else s.attestations.insert recordId keptAtts
        sealAttestations :=
          if s.sealAttestations.lookup recordId = none then s.sealAttestations
          else s.sealAttestations.insert recordId keptSatts } purged,
        [.recompute recordId false])
    else (s, [])
  else (s, [])

def registerCrossZoneParents (recordId : Str) (parentIds : List Str) :
    AWCConsensus :=
  if parentIds = [] then s
  else
    { s with
      crossZoneParents := s.crossZoneParents.insert recordId parentIds
      crossZoneRegisteredTotal :=
        if s.crossZoneParents.lookup recordId = none then U64.satAdd s.crossZoneRegisteredTotal 1
        else s.crossZoneRegisteredTotal }

/-- The records that `force_finalize_settled` forces, in the order of the walk. -/
def settledPending [Sha3] [Iteration] : List Str :=
  ((Iteration.walk s.attestations).map Prod.fst).filter fun r =>
    s.isSettled r && !(s.confirmationLevel r).isFinal

/-- Promote one member of a settled seal; a final one is left alone. -/
def promoteMember (recordId : Str) : AWCConsensus :=
  if (s.confirmationLevel recordId).isFinal then s
  else (s.setLevel recordId .finalized).enqueueFinalized recordId

def promoteSealMembers (recordIds : List Str) : AWCConsensus :=
  recordIds.foldl promoteMember s

def sealRecord (sealId : Str) (s : AWCConsensus) (recordId : Str) : AWCConsensus :=
  let s := if s.confirmationLevel recordId < .sealed then s.setLevel recordId .sealed else s
  { s with recordToSeal := s.recordToSeal.insert recordId sealId }

/-- Register the records of a seal; those of a settled seal become final. -/
def registerSealRecords (sealId : Str) (recordIds : List Str) : AWCConsensus :=
  let s := recordIds.foldl (sealRecord sealId) s
  let s := { s with sealRecordIds := s.sealRecordIds.insert sealId recordIds }
  if s.isSealSettled sealId then s.promoteSealMembers recordIds else s

/-- Note when a seal was first found settled. -/
def stampSettled (sealId : Str) (now : F64) : AWCConsensus :=
  { s with
    sealSettledTrueTotal := s.sealSettledTrueTotal + 1
    sealFinalizedAt :=
      if s.sealFinalizedAt.lookup sealId = none then s.sealFinalizedAt.insert sealId now
      else s.sealFinalizedAt }

/-- `add_seal_attestation` below the memory budget. -/
def admitSealAttestation (a : SealAttestation) (now : F64) : AWCConsensus :=
  if s.creatorIdentity.lookup a.sealId = some a.witnessHash then s.rejectSelf 1
  else if (s.sealAttestationsOf a.sealId).any fun b => b.witnessHash = a.witnessHash then s
  else
    let members := s.sealRecordIds.lookup a.sealId
    let s := { s with sealAttestations :=
      s.sealAttestations.insert a.sealId (s.sealAttestationsOf a.sealId ++ [a]) }
    if s.isSealSettled a.sealId then
      let s := s.stampSettled a.sealId now
      match members with
      | some recordIds => s.promoteSealMembers recordIds
      | none => s
    else s

/-- Add an attestation of a seal; the records of a seal that it settles become final. -/
def addSealAttestation [Iteration] (a : SealAttestation) (now : F64) :
    AWCConsensus :=
  let s := { s with sealAttestationAddTotal := s.sealAttestationAddTotal + 1 }
  if maxSealAttestations ≤ s.sealAttestations.entries.length then
    (s.evictOldestSealAttestations (maxSealAttestations / 10)).admitSealAttestation a now
  else s.admitSealAttestation a now

/-- Anchor a record of a seal that stood long enough. -/
def anchorMember (recordId : Str) : AWCConsensus :=
  if recordId ∈ s.anchored then s
  else setLevel { s with anchored := insert recordId s.anchored } recordId .anchored

/-- Anchor the records of a seal, and stop its clock. -/
def anchorSeal (sealId : Str) : AWCConsensus :=
  let s := (s.sealRecordIds.getD sealId []).foldl anchorMember s
  { s with sealFinalizedAt := s.sealFinalizedAt.erase sealId }

/-- Anchor the records of all seals that stood long enough. -/
def promoteAnchored [Iteration] (now : F64) : AWCConsensus :=
  let seals := (Iteration.walk s.sealFinalizedAt).filter fun e =>
    challengeWindowSecs.le (now.sub e.2)
  (seals.map Prod.fst).foldl anchorSeal s

/-- The public calls that write levels, and those that set what the levels depend on. -/
inductive Call where
  | addAttestation (a : Attestation)
  | forceFinalized (recordId : Str)
  | forceFinalizeSettled
  | registerSealRecords (sealId : Str) (recordIds : List Str)
  | addSealAttestation (a : SealAttestation) (now : F64)
  | registerCrossZoneParents (recordId : Str) (parentIds : List Str)
  | registerProfile (witnessHash : Str) (profile : WitnessProfile)
  | promoteAnchored (now : F64)

section Run

variable [Sha3] [Iteration]

/-- Begin a call: the state, and the tasks that remain. -/
def start (s : AWCConsensus) : Call → AWCConsensus × List Task
  | .addAttestation a => s.addAttestation a
  | .forceFinalized r => (s, [.force r])
  | .forceFinalizeSettled => (s, s.settledPending.map .force)
  | .registerSealRecords sealId recordIds => (s.registerSealRecords sealId recordIds, [])
  | .addSealAttestation a now => (s.addSealAttestation a now, [])
  | .registerCrossZoneParents r parentIds => (s.registerCrossZoneParents r parentIds, [])
  | .registerProfile w profile => (s.registerProfile w profile, [])
  | .promoteAnchored now => (s.promoteAnchored now, [])

/-- Make a call and finish all its tasks, with fuel. -/
def call (fuel : ℕ) (s : AWCConsensus) (c : Call) : Option AWCConsensus :=
  drain fuel (s.start c).1 (s.start c).2

/-- Make calls one after another, with fuel for each. -/
def calls (fuel : ℕ) (s : AWCConsensus) (cs : List Call) : Option AWCConsensus :=
  cs.foldlM (call fuel) s

end Run

end AWCConsensus

end ElaraMesh.Consensus
