import ElaraMesh.Ledger.Outcome
import ElaraMesh.Lib.Table
import ElaraMesh.Record.Record
import ElaraMesh.Smt.Hash

/-!
# Transfers between zones

A transfer is locked in its source zone and leaves the lock once: claimed by its
recipient, with a proof that the lock is sealed and a quorum of the source committee, or
given back to its sender.

## Main definitions

* `PendingTransfer`, `CrossZoneState` — the transfers under way.
* `verifySealInclusionProof`, `verifyFinalityQuorum`, `verifyAbortQuorum` — what a claim
  and an abort have to show.
* `lockTransfer`, `claimTransfer`, `cancelTransfer`, `rejectTransfer`, `abortTransfer`,
  `applyRefundBatch`, `applyReapBatch`, `pruneCompleted` — the life of a transfer.
* `setProof`, `setFinalityWitnesses`, `anchorDestCommittee` — what a seal attaches.
-/

namespace ElaraMesh.Ledger

open Framing
open Record (Str ZoneId)
open Smt (Sha3 sha3_256 Bytes32)

/-! ### Types -/

/-- A step of a Merkle path. -/
structure ProofSibling where
  hash : Bytes32
  isRight : Bool
  deriving DecidableEq

/-- A committee member's signature over a seal, with the member's place in the committee. -/
structure SealFinalityWitness where
  witnessPk : List UInt8
  signature : List UInt8
  committeeProof : List ProofSibling
  deriving DecidableEq

inductive TransferStatus where
  | locked : TransferStatus
  | claimed : TransferStatus
  | refunded : TransferStatus
  | aborted : TransferStatus
  deriving DecidableEq

/-- The name of the status in error texts. -/
def TransferStatus.debug : TransferStatus → String
  | locked => "Locked"
  | claimed => "Claimed"
  | refunded => "Refunded"
  | aborted => "Aborted"

structure PendingTransfer where
  transferId : Str
  sender : Str
  recipient : Str
  amount : ℕ
  sourceZone : ZoneId
  destZone : ZoneId
  lockedAt : F64
  expiresAt : F64
  status : TransferStatus
  /-- Empty until the lock is sealed. -/
  merkleProof : List ProofSibling
  sourceSealWireVersion : UInt16
  lockRecordHash : Bytes32
  sourceMerkleRoot : Bytes32
  sourceSealSigners : List SealFinalityWitness
  sourceCommitteeHash : Bytes32
  sourceSealEpoch : UInt64
  sourceCommitteeSize : UInt32
  /-- The committee of the destination that may abort, frozen by the seal. -/
  destFinalityCommittee : Option (Bytes32 × UInt32)
  claimRecordId : Option Str

/-- Transfers to refund, each with the sender and the amount it had. -/
structure XZoneRefundBatch where
  epoch : UInt64
  zone : Str
  refunds : List (Str × Str × ℕ)
  deriving DecidableEq

structure CrossZoneState where
  pending : Table Str PendingTransfer
  totalLocked : ℕ
  lockedCount : ℕ
  claimedCount : ℕ
  refundedCount : ℕ
  abortedCount : ℕ
  /-- The locked transfers without a proof, by the hash of their lock record. -/
  needsProofIndex : Table Bytes32 (List Str)

/-- Signature verification; a malformed key or signature does not verify. -/
class Dilithium where
  verify : (message signature publicKey : List UInt8) → Bool

/-- Seconds from the lock to its expiry. -/
def claimTimeoutSecs : F64 := F64.ofNat (24 * 3600)

/-! ### Inclusion proofs -/

/-- The first wire version whose trees tag their nodes. -/
def foldV2MinWireVersion : UInt16 := 7

def sealFoldV2NodeTag : List UInt8 := (Str.text "ELARA_SEAL_MERKLE_NODE_V1").bytes

def committeeFoldV2NodeTag : List UInt8 := (Str.text "ELARA/COMMITTEE_NODE/v1").bytes

/-- A node and its sibling, in their order in the tree. -/
def siblingPair (current : Bytes32) (sibling : ProofSibling) : List UInt8 :=
  if sibling.isRight then current.data ++ sibling.hash.data
  else sibling.hash.data ++ current.data

section Proofs

variable [Sha3]

def inclusionFoldV2 (tag : List UInt8) (leaf : Bytes32) (proof : List ProofSibling)
    (expectedRoot : Bytes32) : Bool :=
  proof.foldl (fun current sibling => sha3_256 (tag ++ siblingPair current sibling)) leaf =
    expectedRoot

def inclusionFoldV1 (leaf : Bytes32) (proof : List ProofSibling) (expectedRoot : Bytes32) : Bool :=
  proof.foldl (fun current sibling => sha3_256 (siblingPair current sibling)) leaf = expectedRoot

/-- Fold a path as the wire version does, under the tag of its kind of tree. -/
def verifyInclusionProof (tag : List UInt8) (sealWireVersion : UInt16) (leaf : Bytes32)
    (proof : List ProofSibling) (expectedRoot : Bytes32) : Bool :=
  if foldV2MinWireVersion ≤ sealWireVersion then inclusionFoldV2 tag leaf proof expectedRoot
  else inclusionFoldV1 leaf proof expectedRoot

def verifySealInclusionProof : UInt16 → Bytes32 → List ProofSibling → Bytes32 → Bool :=
  verifyInclusionProof sealFoldV2NodeTag

def verifyCommitteeInclusionProof : UInt16 → Bytes32 → List ProofSibling → Bytes32 → Bool :=
  verifyInclusionProof committeeFoldV2NodeTag

def committeeLeafHash (witnessPk : List UInt8) : Bytes32 :=
  sha3_256 ((Str.text "ELARA/COMMITTEE_LEAF/v1").bytes ++ witnessPk)

/-! ### Quorums -/

variable [Dilithium]

/-- Count a witness, unless its key is counted already. -/
def verifySigner (sealWireVersion : UInt16) (msg : List UInt8) (committeeHash : Bytes32)
    (verified : List (List UInt8)) (w : SealFinalityWitness) : List (List UInt8) :=
  if w.witnessPk ∈ verified then verified
  else if !verifyCommitteeInclusionProof sealWireVersion (committeeLeafHash w.witnessPk)
    w.committeeProof committeeHash then verified
  else if !Dilithium.verify msg w.signature w.witnessPk then verified
  else w.witnessPk :: verified

/-- The members of a committee that signed a message, each once. -/
def verifiedSigners (sealWireVersion : UInt16) (msg : List UInt8) (committeeHash : Bytes32)
    (signers : List SealFinalityWitness) : List (List UInt8) :=
  signers.foldl (verifySigner sealWireVersion msg committeeHash) []

/-- Are fewer than two thirds of a committee of this size verified? -/
def belowQuorum (n : ℕ) (size : UInt32) : Bool := U128.satMul n 3 < U128.satMul size.toNat 2

end Proofs

def xzoneFinalityDomain : List UInt8 := (Str.text "ELARA/XZONE_SEAL_FINALITY/v1").bytes

def xzoneAbortDomain : List UInt8 := (Str.text "ELARA/XZONE_ABORT/v1").bytes

/-- What a member of the source committee signs. -/
def xzoneFinalitySignableBytes (zone : ZoneId) (sealEpoch : UInt64)
    (merkleRoot committeeHash : Bytes32) : List UInt8 :=
  xzoneFinalityDomain ++ bigEndian 4 zone.path.length ++ zone.path ++
    bigEndian 8 sealEpoch.toNat ++ merkleRoot.data ++ committeeHash.data

/-- What a member of the destination committee signs to abort a transfer. -/
def xzoneAbortSignableBytes (transferId : Str) (destZone : ZoneId) (sourceSealEpoch : UInt64)
    (destCommitteeHash : Bytes32) : List UInt8 :=
  xzoneAbortDomain ++ bigEndian 4 transferId.len ++ transferId.bytes ++
    bigEndian 4 destZone.path.length ++ destZone.path ++ bigEndian 8 sourceSealEpoch.toNat ++
    destCommitteeHash.data

section Quorums

variable [Sha3] [Dilithium]

def verifyFinalityQuorum (sealWireVersion : UInt16) (zone : ZoneId) (sealEpoch : UInt64)
    (merkleRoot committeeHash : Bytes32) (committeeSize : UInt32)
    (signers : List SealFinalityWitness) : Except ElaraError Unit :=
  if committeeSize = 0 then
    .error (.wire [.text "xzone finality: committee_size must be > 0 to enforce quorum"])
  else
    let msg := xzoneFinalitySignableBytes zone sealEpoch merkleRoot committeeHash
    let n := (verifiedSigners sealWireVersion msg committeeHash signers).length
    if belowQuorum n committeeSize then
      .error (.wire [.text "xzone finality: ", .num n, .text "/", .num committeeSize.toNat,
        .text " verified signers, need ≥2/3 of committee"])
    else .ok ()

def verifyAbortQuorum (sealWireVersion : UInt16) (transferId : Str) (destZone : ZoneId)
    (sourceSealEpoch : UInt64) (destCommitteeHash : Bytes32) (destCommitteeSize : UInt32)
    (signers : List SealFinalityWitness) (anchoredDestCommittee : Option (Bytes32 × UInt32)) :
    Except ElaraError Unit :=
  match anchoredDestCommittee with
  | none => .error (.wire [.text ("xzone abort: no sealed dest-committee anchor for transfer; " ++
      "abort unenforceable (legacy/pre-fix lock)")])
  | some (canonHash, canonSize) =>
    if destCommitteeHash ≠ canonHash then
      .error (.wire [.text ("xzone abort: dest_committee_hash does not match the seal-anchored " ++
        "canonical committee — forged or stale")])
    else if destCommitteeSize ≠ canonSize then
      .error (.wire [.text ("xzone abort: dest_committee_size does not match the seal-anchored " ++
        "canonical committee")])
    else if canonSize = 0 then
      .error (.wire [.text "xzone abort: dest_committee_size must be > 0 to enforce quorum"])
    else
      let msg := xzoneAbortSignableBytes transferId destZone sourceSealEpoch canonHash
      let n := (verifiedSigners sealWireVersion msg canonHash signers).length
      if belowQuorum n canonSize then
        .error (.wire [.text "xzone abort: ", .num n, .text "/", .num canonSize.toNat,
          .text " verified signers, need ≥2/3 of dest committee"])
      else .ok ()

end Quorums

/-! ### The life of a transfer -/

namespace CrossZoneState

def new : CrossZoneState where
  pending := ∅
  totalLocked := 0
  lockedCount := 0
  claimedCount := 0
  refundedCount := 0
  abortedCount := 0
  needsProofIndex := ∅

def indexNeedsProof (c : CrossZoneState) (lockRecordHash : Bytes32) (transferId : Str) :
    CrossZoneState :=
  let ids := Table.getD c.needsProofIndex lockRecordHash []
  { c with
    needsProofIndex := c.needsProofIndex.insert lockRecordHash
      (if transferId ∈ ids then ids else ids ++ [transferId]) }

def unindexNeedsProof (c : CrossZoneState) (lockRecordHash : Bytes32) (transferId : Str) :
    CrossZoneState :=
  match c.needsProofIndex.lookup lockRecordHash with
  | none => c
  | some ids =>
    let ids := ids.filter (· ≠ transferId)
    { c with
      needsProofIndex :=
        if ids = [] then c.needsProofIndex.erase lockRecordHash
        else c.needsProofIndex.insert lockRecordHash ids }

/-- The transfer, or an error that ends as given. -/
def find (c : CrossZoneState) (transferId : Str) (missing : String) : Except Stop PendingTransfer :=
  match c.pending.lookup transferId with
  | some t => .ok t
  | none => .error (ledgerError [.text "cross-zone transfer ", .str transferId, .text missing])

def requireLocked (t : PendingTransfer) (transferId : Str) (refusal : String) : Except Stop Unit :=
  if t.status = .locked then .ok ()
  else .error (ledgerError [.text "transfer ", .str transferId, .text " is ",
    .text t.status.debug, .text refusal])

def unlock (c : CrossZoneState) (transferId : Str) (t : PendingTransfer) : CrossZoneState :=
  { c with
    pending := c.pending.insert transferId t
    totalLocked := U64.satSub c.totalLocked t.amount
    lockedCount := U64.satSub c.lockedCount 1 }

def lockTransfer (c : CrossZoneState) (transferId sender recipient : Str) (amount : ℕ)
    (sourceZone destZone : ZoneId) (timestamp : F64) (lockRecordHash : Bytes32) :
    Except Stop CrossZoneState :=
  if transferId ∈ c.pending then
    .error (ledgerError [.text "cross-zone transfer ", .str transferId, .text " already exists"])
  else if amount = 0 then
    .error (ledgerError [.text "cross-zone transfer amount must be > 0"])
  else if sourceZone = destZone then
    .error (ledgerError [.text "cross-zone transfer source and dest must differ"])
  else
    let transfer : PendingTransfer :=
      { transferId, sender, recipient, amount, sourceZone, destZone
        lockedAt := timestamp
        expiresAt := timestamp.add claimTimeoutSecs
        status := .locked
        merkleProof := []
        sourceSealWireVersion := 0
        lockRecordHash
        sourceMerkleRoot := .zero
        sourceSealSigners := []
        sourceCommitteeHash := .zero
        sourceSealEpoch := 0
        sourceCommitteeSize := 0
        destFinalityCommittee := none
        claimRecordId := none }
    let c := { c with totalLocked := U64.satAdd c.totalLocked amount }
    let c := c.indexNeedsProof lockRecordHash transferId
    .ok { c with
      pending := c.pending.insert transferId transfer
      lockedCount := c.lockedCount + 1 }

section Claim

variable [Sha3] [Dilithium]

/-- What stands against a claim, after the checks of its status. -/
def claimFault (t : PendingTransfer) (transferId claimer : Str) (timestamp : F64) :
    Option Message :=
  if claimer ≠ t.recipient then
    some [.text "claimer ", .str claimer, .text " is not the recipient ", .str t.recipient]
  else if t.expiresAt.lt timestamp then
    some [.text "transfer ", .str transferId, .text " has expired (locked_at=", .float t.lockedAt,
      .text ", expires_at=", .float t.expiresAt, .text ", now=", .float timestamp, .text ")"]
  else if t.merkleProof = [] then
    some [.text "transfer ", .str transferId,
      .text " lock not yet committed to epoch seal (no merkle proof)"]
  else if !verifySealInclusionProof t.sourceSealWireVersion t.lockRecordHash t.merkleProof
      t.sourceMerkleRoot then
    some [.text "transfer ", .str transferId, .text " merkle proof invalid (root mismatch)"]
  else
    match verifyFinalityQuorum t.sourceSealWireVersion t.sourceZone t.sourceSealEpoch
      t.sourceMerkleRoot t.sourceCommitteeHash t.sourceCommitteeSize t.sourceSealSigners with
    | .error e => some ([.text "transfer ", .str transferId,
        .text " seal not finalized in source zone: "] ++ e.display)
    | .ok _ => none

/-- The recipient takes the amount. -/
def claimTransfer (c : CrossZoneState) (transferId claimer claimRecordId : Str) (timestamp : F64) :
    Except Stop (PendingTransfer × CrossZoneState) := do
  let t ← c.find transferId " not found"
  requireLocked t transferId ", not Locked"
  match claimFault t transferId claimer timestamp with
  | some m => .error (ledgerError m)
  | none =>
    let t := { t with status := .claimed, claimRecordId := some claimRecordId }
    let c := c.unlock transferId t
    return (t, { c with claimedCount := c.claimedCount + 1 })

end Claim

/-- A seal commits to the lock. -/
def setProof (c : CrossZoneState) (transferId : Str) (proof : List ProofSibling)
    (merkleRoot : Bytes32) (sealWireVersion : UInt16) : Except Stop CrossZoneState := do
  let t ← c.find transferId " not found for proof attachment"
  requireLocked t transferId ", cannot attach proof"
  let t := { t with
    merkleProof := proof
    sourceMerkleRoot := merkleRoot
    sourceSealWireVersion := sealWireVersion }
  let c := { c with pending := c.pending.insert transferId t }
  return c.unindexNeedsProof t.lockRecordHash transferId

/-- The signatures over the seal that commits to the lock. -/
def setFinalityWitnesses (c : CrossZoneState) (transferId : Str)
    (signers : List SealFinalityWitness) (committeeHash : Bytes32) (sealEpoch : UInt64)
    (committeeSize : UInt32) : Except Stop CrossZoneState := do
  let t ← c.find transferId " not found for finality witnesses"
  requireLocked t transferId ", cannot attach finality witnesses"
  let t := { t with
    sourceSealSigners := signers
    sourceCommitteeHash := committeeHash
    sourceSealEpoch := sealEpoch
    sourceCommitteeSize := committeeSize }
  return { c with pending := c.pending.insert transferId t }

/-- The committee that may abort, frozen when the proof is attached. -/
def anchorDestCommittee (c : CrossZoneState) (transferId : Str) (anchor : Bytes32 × UInt32) :
    CrossZoneState :=
  match c.pending.lookup transferId with
  | some t =>
    { c with pending := c.pending.insert transferId { t with destFinalityCommittee := some anchor } }
  | none => c

/-- An unsealed transfer goes back to its sender, at the word of the party `owner` says. -/
def refundUnsealed (c : CrossZoneState) (transferId caller : Str)
    (owner : PendingTransfer → Str) (verb callerRole ownerRole sealedRefusal : String) :
    Except Stop ((Str × Str × ℕ) × CrossZoneState) := do
  let t ← c.find transferId " not found"
  requireLocked t transferId (", cannot " ++ verb)
  if caller ≠ owner t then
    .error (ledgerError [.text callerRole, .str caller, .text " is not the ", .text ownerRole,
      .str (owner t)])
  else if t.merkleProof ≠ [] then
    .error (ledgerError [.text "transfer ", .str transferId, .text sealedRefusal])
  else
    let c := c.unlock transferId { t with status := .refunded }
    let c := { c with refundedCount := c.refundedCount + 1 }
    return ((t.transferId, t.sender, t.amount), c.unindexNeedsProof t.lockRecordHash transferId)

/-- The sender takes an unsealed transfer back. -/
def cancelTransfer (c : CrossZoneState) (transferId canceller : Str) :
    Except Stop ((Str × Str × ℕ) × CrossZoneState) :=
  c.refundUnsealed transferId canceller (·.sender) "cancel" "canceller " "sender "
    (" already sealed in source zone — sender-initiated cancel unsafe (recipient may be in " ++
      "flight); wait for claim/timeout or use recipient-zone abort proof")

/-- The recipient gives an unsealed transfer back. -/
def rejectTransfer (c : CrossZoneState) (transferId rejector : Str) :
    Except Stop ((Str × Str × ℕ) × CrossZoneState) :=
  c.refundUnsealed transferId rejector (·.recipient) "reject" "rejector " "recipient "
    (" already sealed in source zone — recipient-initiated reject unsafe (recipient may have " ++
      "already claimed in dest zone); wait for claim/timeout or use recipient-zone committee " ++
      "abort proof")

/-- A sealed transfer goes back to its sender; the quorum is checked by the caller. -/
def abortTransfer (c : CrossZoneState) (transferId : Str) :
    Except Stop ((Str × Str × ℕ) × CrossZoneState) := do
  let t ← c.find transferId " not found"
  requireLocked t transferId ", cannot abort"
  if t.merkleProof = [] ∨ t.sourceSealEpoch = 0 then
    .error (ledgerError [.text "transfer ", .str transferId,
      .text " is not sealed yet — use cancel/reject (unsealed path)"])
  else
    let c := c.unlock transferId { t with status := .aborted }
    return ((t.transferId, t.sender, t.amount), { c with abortedCount := c.abortedCount + 1 })

/-- One transfer of a batch goes back to its sender if it is locked and eligible; what the
batch says of its sender and amount is not read. -/
def refundEntry (eligible : PendingTransfer → Bool)
    (finish : CrossZoneState → PendingTransfer → Str → CrossZoneState)
    (acc : CrossZoneState × List (Str × ℕ)) (entry : Str × Str × ℕ) :
    CrossZoneState × List (Str × ℕ) :=
  match acc.1.pending.lookup entry.1 with
  | none => acc
  | some t =>
    if t.status = .locked ∧ eligible t then
      let c := acc.1.unlock entry.1 { t with status := .refunded }
      let c := { c with refundedCount := c.refundedCount + 1 }
      (finish c t entry.1, acc.2 ++ [(t.sender, t.amount)])
    else acc

def applyRefundBatch (c : CrossZoneState) (batch : XZoneRefundBatch) :
    CrossZoneState × List (Str × ℕ) :=
  batch.refunds.foldl (refundEntry (fun t => t.merkleProof = [])
    fun c t transferId => c.unindexNeedsProof t.lockRecordHash transferId) (c, [])

def applyReapBatch (c : CrossZoneState) (batch : XZoneRefundBatch) :
    CrossZoneState × List (Str × ℕ) :=
  batch.refunds.foldl (refundEntry (fun t => t.merkleProof ≠ []) fun c _ _ => c) (c, [])

/-- Is the transfer kept when old ones are dropped? -/
def keepsTransfer (cutoff : F64) (t : PendingTransfer) : Bool :=
  t.status = .locked ∨ cutoff.lt t.lockedAt

def dropped (c : CrossZoneState) (cutoff : F64) (status : TransferStatus) : ℕ :=
  c.pending.values.countP fun t => t.status = status ∧ !keepsTransfer cutoff t

/-- Drop the old transfers whose lock has ended. -/
def pruneCompleted (c : CrossZoneState) (cutoff : F64) : ℕ × CrossZoneState :=
  let pending := c.pending.retain fun _ t => keepsTransfer cutoff t
  (c.pending.entries.length - pending.entries.length,
    { c with
      pending
      claimedCount := U64.satSub c.claimedCount (c.dropped cutoff .claimed)
      refundedCount := U64.satSub c.refundedCount (c.dropped cutoff .refunded)
      abortedCount := U64.satSub c.abortedCount (c.dropped cutoff .aborted) })

end CrossZoneState

end ElaraMesh.Ledger
