import ElaraMesh.Record.Record
import ElaraMesh.Smt.Bytes
import ElaraMesh.Lib.Table
import ElaraMesh.Lib.OrderedMap
import Mathlib.Data.Prod.Lex

/-!
# The epoch state of a node

A node keeps for every zone the tip of its seal chain, a window of the seal hashes of the last
64 epochs, from which super-seals are made, and a ring of the VRF outputs that seed juries.
Seals come in through `registerSeal`, through `registerSealWithReconcile`, which weighs a rival
of the tip, through `promoteOrphanToCanonical`, when a rival that lost gathers weight, and as
escalation seals through `registerGlobalSeal`.  A table of pinned anchors fixes the seal hash
of some epochs.

End times are values of a linear order: ring entries are compared by `total_cmp`.

## Main definitions

* `ParsedEpochSeal`, `ParsedGlobalQuorumSeal`, `EpochState`.
* `dedupSortTruncateVrfRing`, `EpochState.upsertVrfRing` — the ring.
* `pruneSealWindow`, `EpochState.upsertSealWindow` — the window.
* `EpochState.registerSeal`, `EpochState.registerSealWithReconcile`,
  `EpochState.promoteOrphanToCanonical`, `EpochState.registerGlobalSeal`.
* `Call`, `EpochState.step`, `run` — the calls that change the state.
* `EpochState.snapshotRecentSealHashes`, `EpochState.vrfOutputAtOrBefore` — what is read.
-/

namespace ElaraMesh
namespace Epoch

open Record (Str ZoneId)
open Smt (Bytes32)

/-- Zones are ordered by the bytes of their paths. -/
instance : LinearOrder ZoneId :=
  LinearOrder.lift' (fun z => z.path.map UInt8.toNat) fun ⟨_⟩ ⟨_⟩ h =>
    congrArg ZoneId.mk (List.map_injective_iff.mpr (fun _ _ => UInt8.toNat_inj.mp) h)

def superSealInterval : ℕ := 64

def vrfHistoryPerZone : ℕ := 64

/-- The rivals that are remembered for one zone and epoch. -/
def partitionMergeSiblingRingPerKey : ℕ := 256

/-- The zones and epochs for which rivals are remembered. -/
def partitionMergeSiblingRingGlobalKeys : ℕ := 1024

structure ParsedEpochSeal (Time : Type) where
  zone : ZoneId
  epochNumber : ℕ
  endTs : Time
  vrfOutput : Option Bytes32

/-- What the epoch state reads of an escalation seal. -/
structure ParsedGlobalQuorumSeal where
  stuckZone : ZoneId
  stuckEpoch : ℕ

structure VrfRingEntry (Time : Type) where
  endTs : Time
  epoch : ℕ
  vrf : Bytes32
  recordHash : Bytes32
  deriving DecidableEq

abbrev VrfRing (Time : Type) : Type := List (VrfRingEntry Time)

structure EpochState (Time : Type) where
  latestEpoch : Table ZoneId ℕ
  latestSealId : Table ZoneId Str
  latestSealHash : Table ZoneId Bytes32
  recentSealHashes : Table ZoneId (OrderedMap ℕ Bytes32)
  vrfHistory : Table ZoneId (VrfRing Time)
  orphanSiblings : Table (ZoneId × ℕ) (List Str)
  chainAnchors : List (List UInt8 × ℕ × Bytes32)

/-- Keep of a window the epochs of a super-seal that ends at the tip. -/
def pruneSealWindow (buf : OrderedMap ℕ Bytes32) (tip : ℕ) : OrderedMap ℕ Bytes32 :=
  let floor := tip - (superSealInterval - 1)
  (buf.popFirstWhile (· < floor)).popLastWhile (tip < ·)

section Ring

variable {Time : Type} [LinearOrder Time]

/-- Ring entries are sorted by end time, then by epoch. -/
def VrfRingEntry.le (a b : VrfRingEntry Time) : Bool :=
  a.endTs < b.endTs ∨ a.endTs = b.endTs ∧ a.epoch ≤ b.epoch

/-- Of two entries of one epoch the one of the smaller hash stays, the older one in a tie. -/
def VrfRingEntry.better (e slot : VrfRingEntry Time) : VrfRingEntry Time :=
  if e.recordHash < slot.recordHash then e else slot

def dedupByEpoch (ring : VrfRing Time) : OrderedMap ℕ (VrfRingEntry Time) :=
  ring.foldl (fun byEpoch e => byEpoch.upsert e.epoch e e.better) ∅

/-- Bring a ring to its form: one entry for each epoch, sorted, the last 64. -/
def dedupSortTruncateVrfRing (ring : VrfRing Time) : VrfRing Time :=
  let entries := (dedupByEpoch ring).values.insertionSort fun a b => a.le b
  let start := entries.length - vrfHistoryPerZone
  entries.drop start

end Ring

namespace EpochState

variable {Time : Type}

def new (chainAnchors : List (List UInt8 × ℕ × Bytes32)) : EpochState Time where
  latestEpoch := ∅
  latestSealId := ∅
  latestSealHash := ∅
  recentSealHashes := ∅
  vrfHistory := ∅
  orphanSiblings := ∅
  chainAnchors := chainAnchors

variable (s : EpochState Time)

/-- The epoch of the tip of a zone, 0 before the first seal. -/
def tip (zone : ZoneId) : ℕ := s.latestEpoch.getD zone 0

def setTip (zone : ZoneId) (epoch : ℕ) (recordId : Str) (recordHash : Bytes32) : EpochState Time :=
  { s with
    latestEpoch := s.latestEpoch.insert zone epoch
    latestSealId := s.latestSealId.insert zone recordId
    latestSealHash := s.latestSealHash.insert zone recordHash }

theorem tip_setTip (zone : ZoneId) (epoch : ℕ) (recordId : Str)
    (recordHash : Bytes32) (z : ZoneId) :
    (s.setTip zone epoch recordId recordHash).tip z = if z = zone then epoch else s.tip z :=
  Table.getD_insert s.latestEpoch zone z epoch 0

/-- Does a seal hash agree with the pinned hash, if there is one? -/
def chainAnchorAdmits (zone : ZoneId) (epoch : ℕ) (recordHash : Bytes32) :
    Bool :=
  match s.chainAnchors.find? fun (z, e, _) => e = epoch ∧ z = zone.path with
  | some (_, _, pinned) => recordHash = pinned
  | none => true

/-- Without pinned anchors every seal is admitted. -/
theorem chainAnchorAdmits_of_nil {s : EpochState Time} (h : s.chainAnchors = []) (zone : ZoneId)
    (epoch : ℕ) (recordHash : Bytes32) : s.chainAnchorAdmits zone epoch recordHash = true := by
  unfold chainAnchorAdmits
  rw [h]
  rfl

/-- Enter a seal hash into the window, unless its epoch lies outside. -/
def upsertSealWindow (zone : ZoneId) (epoch : ℕ) (recordHash : Bytes32) :
    EpochState Time :=
  let tip := s.tip zone
  let floor := tip - (superSealInterval - 1)
  { s with
    recentSealHashes :=
      if epoch < floor ∨ tip < epoch then s.recentSealHashes
      else
        let buf := s.recentSealHashes.getD zone ∅
        let buf := buf.upsert epoch recordHash fun existing =>
          if recordHash < existing then recordHash else existing
        s.recentSealHashes.insert zone (pruneSealWindow buf tip) }

/-- Remember a seal that lost, within the bounds. -/
def recordOrphanSibling (zone : ZoneId) (epoch : ℕ) (sealId : Str) :
    EpochState Time :=
  let key := (zone, epoch)
  let siblings :=
    if s.orphanSiblings.lookup key = none ∧
        partitionMergeSiblingRingGlobalKeys ≤ s.orphanSiblings.entries.length then
      match (s.orphanSiblings.keys.map toLex).min? with
      | some oldest => s.orphanSiblings.erase (ofLex oldest)
      | none => s.orphanSiblings
    else s.orphanSiblings
  let ring := siblings.getD key []
  let ring :=
    if sealId ∈ ring then ring
    else
      let ring := ring ++ [sealId]
      ring.drop (ring.length - partitionMergeSiblingRingPerKey)
  { s with orphanSiblings := siblings.insert key ring }

/-- Remember the tip of a zone, which is about to be replaced. -/
def recordTip (zone : ZoneId) (epoch : ℕ) : EpochState Time :=
  match s.latestSealId.lookup zone with
  | some prevId => s.recordOrphanSibling zone epoch prevId
  | none => s

def forgetOrphanSibling (key : ZoneId × ℕ) (sealId : Str) :
    EpochState Time :=
  { s with
    orphanSiblings :=
      match s.orphanSiblings.lookup key with
      | none => s.orphanSiblings
      | some ring =>
        let ring := ring.filter (· ≠ sealId)
        if ring.isEmpty then s.orphanSiblings.erase key else s.orphanSiblings.insert key ring }

/-- The seal hashes of the 64 epochs up to the tip, if none is missing. -/
def superSealWindowComplete (zone : ZoneId) (tip : ℕ) : Bool :=
  match s.recentSealHashes.lookup zone with
  | none => false
  | some buf =>
    let floor := tip - (superSealInterval - 1)
    buf.length = superSealInterval ∧ buf.firstKey? = some floor ∧ buf.lastKey? = some tip

/-- The hashes for a super-seal, in the order of their epochs. -/
def snapshotRecentSealHashes (zone : ZoneId) : Option (List Bytes32) := do
  let tip ← s.latestEpoch.lookup zone
  if ¬ s.superSealWindowComplete zone tip then none
  else return (← s.recentSealHashes.lookup zone).values

/-- Does the smaller hash win against the tip? -/
def lexMinWins (zone : ZoneId) (recordHash : Bytes32) : Bool :=
  match s.latestSealHash.lookup zone with
  | some h => recordHash < h
  | none => true

/-- A later epoch wins, and in the same epoch the smaller hash. -/
def shouldCanonicalize (t : ParsedEpochSeal Time) (recordHash : Bytes32) :
    Bool :=
  let current := s.tip t.zone
  if current < t.epochNumber then true
  else if t.epochNumber = current then s.lexMinWins t.zone recordHash
  else false

/-- In the same epoch the greater weight wins, then the smaller hash. -/
def incomingWins (zone : ZoneId) (recordHash : Bytes32)
    (incomingWeight existingWeight : ℕ) : Bool :=
  match compare incomingWeight existingWeight with
  | .gt => true
  | .lt => false
  | .eq => s.lexMinWins zone recordHash

variable [LinearOrder Time]

def upsertVrfRing (zone : ZoneId) (endTs : Time) (epoch : ℕ)
    (vrf recordHash : Bytes32) : EpochState Time :=
  let ring := s.vrfHistory.getD zone [] ++ [⟨endTs, epoch, vrf, recordHash⟩]
  { s with vrfHistory := s.vrfHistory.insert zone (dedupSortTruncateVrfRing ring) }

/-- Enter the VRF output of a seal into the ring, if it has one. -/
def seedVrfRing (t : ParsedEpochSeal Time) (recordHash : Bytes32) :
    EpochState Time :=
  match t.vrfOutput with
  | some vrf => s.upsertVrfRing t.zone t.endTs t.epochNumber vrf recordHash
  | none => s

/-- The VRF output of the latest seal that ends at a time or before. -/
def vrfOutputAtOrBefore (zone : ZoneId) (atTimestamp : Time) :
    Option Bytes32 := do
  let ring ← s.vrfHistory.lookup zone
  (ring.reverse.find? (·.endTs ≤ atTimestamp)).map (·.vrf)

/-- Make a seal the tip of its zone, unless a pinned anchor refuses it. -/
def applyCanonicalSeal (t : ParsedEpochSeal Time) (recordId : Str)
    (recordHash : Bytes32) : EpochState Time × Bool :=
  if ¬ s.chainAnchorAdmits t.zone t.epochNumber recordHash then (s, false)
  else
    let s := s.setTip t.zone t.epochNumber recordId recordHash
    let s := s.seedVrfRing t recordHash
    (s.upsertSealWindow t.zone t.epochNumber recordHash, true)

/-- What a seal that does not become the tip leaves behind. -/
def registerLosing (t : ParsedEpochSeal Time) (recordHash : Bytes32) :
    EpochState Time :=
  (s.upsertSealWindow t.zone t.epochNumber recordHash).seedVrfRing t recordHash

def registerSeal (t : ParsedEpochSeal Time) (recordId : Str)
    (recordHash : Bytes32) : EpochState Time :=
  if s.shouldCanonicalize t recordHash then (s.applyCanonicalSeal t recordId recordHash).1
  else s.registerLosing t recordHash

/-- Register a seal, with weights for a rival of the tip. -/
def registerSealWithReconcile (t : ParsedEpochSeal Time)
    (recordId : Str) (recordHash : Bytes32) (incomingWeight existingWeight : ℕ) :
    EpochState Time × Bool :=
  let current := s.tip t.zone
  if current < t.epochNumber then s.applyCanonicalSeal t recordId recordHash
  else if t.epochNumber < current then (s.registerLosing t recordHash, false)
  else
    -- a seal that is the tip already
    if s.latestSealId.lookup t.zone = some recordId ∧
        s.latestSealHash.lookup t.zone = some recordHash then
      (s, false)
    else
      if s.incomingWins t.zone recordHash incomingWeight existingWeight then
        match s.applyCanonicalSeal t recordId recordHash, s.latestSealId.lookup t.zone with
        | (s, false), _ => (s, false)
        | (s, true), some prevId => (s.recordOrphanSibling t.zone t.epochNumber prevId, true)
        | (s, true), none => (s, true)
      else
        let s := s.recordOrphanSibling t.zone t.epochNumber recordId
        (s.registerLosing t recordHash, false)

/-- Make a remembered rival of the tip the tip. -/
def promoteOrphanToCanonical (t : ParsedEpochSeal Time)
    (recordId : Str) (recordHash : Bytes32) : EpochState Time × Bool :=
  let currentEpoch := s.tip t.zone
  if t.epochNumber ≠ currentEpoch then (s, false)
  else if s.latestSealId.lookup t.zone = some recordId then (s, false)
  else
    let key := (t.zone, t.epochNumber)
    if recordId ∉ s.orphanSiblings.getD key [] then (s, false)
    else if ¬ s.chainAnchorAdmits t.zone t.epochNumber recordHash then (s, false)
    else
      let s := s.recordTip t.zone t.epochNumber
      let s := (s.applyCanonicalSeal t recordId recordHash).1
      (s.forgetOrphanSibling key recordId, true)

/-- Register an escalation seal: its epoch wins, also against a tip of the same epoch. -/
def registerGlobalSeal (t : ParsedGlobalQuorumSeal) (recordId : Str)
    (recordHash : Bytes32) : EpochState Time × Bool :=
  if ¬ s.chainAnchorAdmits t.stuckZone t.stuckEpoch recordHash then (s, false)
  else
    let current := s.tip t.stuckZone
    if current ≤ t.stuckEpoch then
      (s.setTip t.stuckZone t.stuckEpoch recordId recordHash, true)
    else (s, true)

/-! ### What the parts leave alone -/

@[simp] theorem seedVrfRing_latestEpoch (t : ParsedEpochSeal Time)
    (recordHash : Bytes32) : (s.seedVrfRing t recordHash).latestEpoch = s.latestEpoch := by
  unfold seedVrfRing
  split <;> rfl

@[simp] theorem seedVrfRing_latestSealId (t : ParsedEpochSeal Time)
    (recordHash : Bytes32) : (s.seedVrfRing t recordHash).latestSealId = s.latestSealId := by
  unfold seedVrfRing
  split <;> rfl

@[simp] theorem seedVrfRing_latestSealHash (t : ParsedEpochSeal Time)
    (recordHash : Bytes32) : (s.seedVrfRing t recordHash).latestSealHash = s.latestSealHash := by
  unfold seedVrfRing
  split <;> rfl

@[simp] theorem seedVrfRing_recentSealHashes (t : ParsedEpochSeal Time) (recordHash : Bytes32) :
    (s.seedVrfRing t recordHash).recentSealHashes = s.recentSealHashes := by
  unfold seedVrfRing
  split <;> rfl

@[simp] theorem seedVrfRing_chainAnchors (t : ParsedEpochSeal Time)
    (recordHash : Bytes32) : (s.seedVrfRing t recordHash).chainAnchors = s.chainAnchors := by
  unfold seedVrfRing
  split <;> rfl

def vrfRing (zone : ZoneId) : VrfRing Time := s.vrfHistory.getD zone []

def window (zone : ZoneId) : OrderedMap ℕ Bytes32 :=
  s.recentSealHashes.getD zone ∅

end EpochState

/-- A call that changes the epoch state. -/
inductive Call (Time : Type) where
  | registerSeal (t : ParsedEpochSeal Time) (recordId : Str) (recordHash : Bytes32)
  | registerSealWithReconcile (t : ParsedEpochSeal Time) (recordId : Str)
      (recordHash : Bytes32) (incomingWeight existingWeight : ℕ)
  | promoteOrphanToCanonical (t : ParsedEpochSeal Time) (recordId : Str)
      (recordHash : Bytes32)
  | registerGlobalSeal (t : ParsedGlobalQuorumSeal) (recordId : Str) (recordHash : Bytes32)

section Runs

variable {Time : Type} [LinearOrder Time]

def EpochState.step (s : EpochState Time) : Call Time → EpochState Time
  | .registerSeal t recordId recordHash => s.registerSeal t recordId recordHash
  | .registerSealWithReconcile t recordId recordHash incomingWeight existingWeight =>
    (s.registerSealWithReconcile t recordId recordHash incomingWeight existingWeight).1
  | .promoteOrphanToCanonical t recordId recordHash =>
    (s.promoteOrphanToCanonical t recordId recordHash).1
  | .registerGlobalSeal t recordId recordHash =>
    (s.registerGlobalSeal t recordId recordHash).1

def run (chainAnchors : List (List UInt8 × ℕ × Bytes32)) (calls : List (Call Time)) :
    EpochState Time :=
  calls.foldl EpochState.step (.new chainAnchors)

end Runs

end Epoch
end ElaraMesh
