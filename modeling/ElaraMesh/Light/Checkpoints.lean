import ElaraMesh.Epoch.State
import ElaraMesh.Light.State

/-!
# Checkpoints of a cold start

A client that has no headers asks a seed for checkpoints, drops those that another seed knows
with another record hash, fetches the records and checks their signatures, and then fetches the
headers that a super-seal covers.  The zone, the epochs and the number of seals of a mark are
those of the answer of the seed; what the signed record says about them is not looked at, and
the epochs of the fetched headers are not signed.

## Main results

* `gatherHashes_eq`, `coverMark_eq_some` — what the last pass makes of a mark.
* `exists_madeOf` — an accepted mark is made of an entry that is served, with a record of its hash.
* `authenticMark_iff` — the record of an installed mark was signed; the mark is authentic exactly if
  the entry and the headers that the seed serves for it agree with the signed super-seal.
* `authenticMark_relabelled` — a mark for a zone that no super-seal names.
-/

namespace ElaraMesh.Light

open Epoch (superSealInterval)
open Ledger (Dilithium foldV2MinWireVersion)
open Record (Str Value Unicode ZoneId ValidationRecord FloatFormat RecordError)
open Record.ValidationRecord (recordSecondLegAlgorithm fromBytes)
open Seal.MerkleTree (combine combineTagged root)
open Smt (Bytes32 Sha3)
open ZoneTree (getKey hash32 metaField epochOpKey)

/-! ### The answers -/

/-- The entries that are read of an answer at most. -/
def maxLightResponseItems : ℕ := 8192

def parseCheckpointJson [Unicode] (v : Value) : Option CheckpointMark := do
  let zone ← (getKey "zone" v).bind Value.asStr
  let startEpoch ← u64Key v "start_epoch"
  let endEpoch ← u64Key v "end_epoch"
  guard (startEpoch ≤ endEpoch)
  let sealCount ← u64Key v "seal_count"
  let recordId ← (getKey "record_id" v).bind Value.asStr
  let recordHash ← hexKey v "record_hash"
  return {
    zone := ZoneId.new zone.bytes
    startEpoch, endEpoch, sealCount, recordId, recordHash
    committeeHash := (hexKey v "committee_hash").getD Bytes32.zero
    coverageVerified := false
    trustGrade := .reference
    baselineSealHash := none }

def parseCheckpointsCapped [Unicode] (arr : List Value) : List CheckpointMark :=
  (arr.take maxLightResponseItems).filterMap parseCheckpointJson

/-- The checkpoints in an answer; none if it is not of the right form. -/
def checkpointsIn [Unicode] (body : Value) : List CheckpointMark :=
  match getKey "checkpoints" body with
  | some (.array arr) => parseCheckpointsCapped arr
  | _ => []

theorem parseCheckpointJson_eq_some [Unicode] {v : Value} {e : CheckpointMark}
    (h : parseCheckpointJson v = some e) :
    ((getKey "zone" v).bind Value.asStr).map (fun zone => ZoneId.new zone.bytes) = some e.zone ∧
      u64Key v "start_epoch" = some e.startEpoch ∧ u64Key v "end_epoch" = some e.endEpoch ∧
      u64Key v "seal_count" = some e.sealCount ∧ hexKey v "record_hash" = some e.recordHash ∧
      e.coverageVerified = false := by
  simp only [parseCheckpointJson, Option.bind_eq_bind, Option.bind_eq_some_iff] at h
  obtain ⟨zone, hzone, startEpoch, hstart, endEpoch, hend, -, -, sealCount, hcount, recordId, -,
    recordHash, hhash, heq⟩ := h
  obtain rfl := Option.some.inj heq
  refine ⟨?_, hstart, hend, hcount, hhash, rfl⟩
  rw [Option.map_eq_some_iff]
  exact ⟨zone, Option.bind_eq_some_iff.mpr hzone, rfl⟩

/-- The entries that are read of the answer of the first seed. -/
def entriesIn (body : Value) : List Value :=
  match getKey "checkpoints" body with
  | some (.array arr) => arr.take maxLightResponseItems
  | _ => []

theorem checkpointsIn_eq [Unicode] (body : Value) :
    checkpointsIn body = (entriesIn body).filterMap parseCheckpointJson := by
  unfold checkpointsIn entriesIn
  split <;> rfl

/-- Drop what another seed knows with another record hash. -/
def crossVerifyCheckpoints [Unicode] (primary : List CheckpointMark) (otherBodies : List Value) :
    List CheckpointMark × List (ZoneId × ℕ) :=
  let conflict (p : CheckpointMark) : Bool := otherBodies.any fun body =>
    (checkpointsIn body).any fun o =>
      o.zone = p.zone && o.endEpoch = p.endEpoch && o.recordHash ≠ p.recordHash
  (primary.filter fun p => !conflict p,
    (primary.filter conflict).map fun p => (p.zone, p.endEpoch))

/-! ### Signatures -/

/-- The second signature of a record; a malformed key or signature does not verify. -/
class SecondSignature where
  sphincsVerify : (message signature publicKey : List UInt8) → Bool
  slhDsaVerify : (message signature publicKey : List UInt8) → Bool

inductive SecondLegError where
  | keyMissing : SecondLegError
  | signatureMissing : SecondLegError
  | noVerifier (version : UInt16) : SecondLegError
  | noAlgorithm (version : UInt16) : SecondLegError
  | badAlgorithm (algorithm : UInt8) (version : UInt16) : SecondLegError

def algSphincsSha2 : UInt8 := 0x02

def algSlhDsaSha2 : UInt8 := 0x04

def verifySecondLeg [SecondSignature] (version : UInt16) (alg : Option UInt8)
    (message signature publicKey : List UInt8) : Except SecondLegError Bool :=
  match recordSecondLegAlgorithm version with
  | none => .error (.noVerifier version)
  | some era =>
    if era = algSphincsSha2 ∧ (alg = none ∨ alg = some algSphincsSha2) then
      .ok (SecondSignature.sphincsVerify message signature publicKey)
    else if era = algSlhDsaSha2 ∧ alg = some algSlhDsaSha2 then
      .ok (SecondSignature.slhDsaVerify message signature publicKey)
    else
      match alg with
      | none => .error (.noAlgorithm version)
      | some other => .error (.badAlgorithm other version)

/-- Nothing if there is no second signature; half of one is an error. -/
def checkSecondLeg [SecondSignature] (rec : ValidationRecord) (signable : List UInt8) :
    Except SecondLegError (Option Bool) :=
  match rec.sphincsSignature, rec.creatorSphincsPk with
  | none, none => .ok none
  | some sig, some pk =>
    (verifySecondLeg rec.version rec.sphincsAlgorithm signable sig pk).map some
  | some _, none => .error .keyMissing
  | none, some _ => .error .signatureMissing

inductive SealRecordVerifyError where
  | wireDecode (e : RecordError) : SealRecordVerifyError
  | recordHashMismatch (expected actual : Bytes32) : SealRecordVerifyError
  | missingSignature : SealRecordVerifyError
  | missingCreatorPubkey : SealRecordVerifyError
  | untrustedAnchor : SealRecordVerifyError
  | invalidSignature : SealRecordVerifyError
  /-- It does not verify, or it is not one that can be checked. -/
  | secondSignature (e : Option SecondLegError) : SealRecordVerifyError

section

variable [Unicode] [FloatFormat] [Sha3] [Dilithium] [SecondSignature]

/-- A record is of the hash and signed with its own key, if this key is trusted. -/
def verifySealRecord (wireBytes : List UInt8) (expectedRecordHash : Bytes32)
    (trusted : List UInt8 → Bool) : Except SealRecordVerifyError Unit :=
  match fromBytes wireBytes with
  | .error e => .error (.wireDecode e)
  | .ok rec =>
    if rec.recordHash ≠ expectedRecordHash then
      .error (.recordHashMismatch expectedRecordHash rec.recordHash)
    else
      match rec.signature with
      | none => .error .missingSignature
      | some sig =>
        if rec.creatorPublicKey = [] then .error .missingCreatorPubkey
        else if ¬ trusted rec.creatorPublicKey then .error .untrustedAnchor
        else if ¬ Dilithium.verify rec.signableBytes sig rec.creatorPublicKey then
          .error .invalidSignature
        else
          match checkSecondLeg rec rec.signableBytes with
          | .ok none => .ok ()
          | .ok (some true) => .ok ()
          | .ok (some false) => .error (.secondSignature none)
          | .error e => .error (.secondSignature (some e))

/-- Signed with a pinned key. -/
def verifySealRecordAgainstAnchor (wireBytes : List UInt8) (expectedRecordHash : Bytes32)
    (trustedAnchorPubkeys : List (List UInt8)) : Except SealRecordVerifyError Unit :=
  verifySealRecord wireBytes expectedRecordHash fun pk =>
    trustedAnchorPubkeys.contains pk

/-- Signed with whatever key the record has. -/
def verifySuperSealRecordIntegrity (expectedRecordHash : Bytes32) (wireBytes : List UInt8) :
    Except SealRecordVerifyError Unit :=
  verifySealRecord wireBytes expectedRecordHash fun _ => true

def classifySuperSealTrust (recordHash : Bytes32) (wireBytes : List UInt8)
    (trustAnchors : List (List UInt8)) : Except SealRecordVerifyError TrustGrade :=
  if trustAnchors = [] then
    (verifySuperSealRecordIntegrity recordHash wireBytes).map fun () => .reference
  else
    (verifySealRecordAgainstAnchor wireBytes recordHash trustAnchors).map fun () => .anchorPinned

end

/-! ### Super-seals -/

def epochOpSuperSeal : String := "super_seal"

def superSealFoldV2NodeTag : List UInt8 := (Str.text "ELARA_SUPER_SEAL_MERKLE_NODE_V1").bytes

/-- A seal over the seals of the epochs of a zone. -/
structure ParsedSuperSeal where
  zone : ZoneId
  startEpoch : ℕ
  endEpoch : ℕ
  sealCount : ℕ
  merkleRoot : Bytes32
  previousSuperSealHash : Bytes32
  committeeHash : Bytes32
  wireVersion : UInt16
  deriving DecidableEq

def superSealField {α : Type} (rec : ValidationRecord) (key : String)
    (read : Value → Option α) : Except RecordError α :=
  match (metaField rec key).bind read with
  | some a => .ok a
  | none => .error (.wire s!"missing {key}")

/-- A hash in hexadecimal digits. -/
def superSealHash (key : String) (text : Str) : Except RecordError Bytes32 :=
  match Record.hexDecode text.bytes with
  | none => .error (.wire s!"invalid {key} hex")
  | some data =>
    match hash32 data with
    | none => .error (.wire s!"{key} wrong length")
    | some h => .ok h

/-- The zone as it is serialized, without normalization. -/
def superSealZone (rec : ValidationRecord) : Except RecordError ZoneId :=
  match metaField rec "super_seal_zone" with
  | none => .error (.wire "missing super_seal_zone")
  | some (.string s) => .ok ⟨s.bytes⟩
  | some _ => .error (.wire "invalid super_seal_zone")

/-- Zeros if there is none. -/
def superSealCommitteeHash (rec : ValidationRecord) : Except RecordError Bytes32 :=
  match metaField rec "super_seal_committee_hash" with
  | none => .ok Bytes32.zero
  | some (.string s) => superSealHash "super_seal_committee_hash" s
  | some _ => .error (.wire "super_seal_committee_hash not a string")

/-- The fields of a record with the operation of a super-seal. -/
def readSuperSeal (rec : ValidationRecord) : Except RecordError ParsedSuperSeal := do
  let zone ← superSealZone rec
  let startEpoch ← superSealField rec "super_seal_start_epoch" Value.asU64
  let endEpoch ← superSealField rec "super_seal_end_epoch" Value.asU64
  let sealCount ← superSealField rec "super_seal_count" Value.asU64
  let merkleRootHex ← superSealField rec "super_seal_merkle_root" Value.asStr
  let prevHex ← superSealField rec "super_seal_prev_hash" Value.asStr
  let merkleRoot ← superSealHash "super_seal_merkle_root" merkleRootHex
  let previousSuperSealHash ← superSealHash "super_seal_prev_hash" prevHex
  let committeeHash ← superSealCommitteeHash rec
  if endEpoch < startEpoch then throw (.wire "super_seal end_epoch < start_epoch")
  if sealCount = 0 then throw (.wire "super_seal seal_count must be > 0")
  return {
    zone
    startEpoch := startEpoch.toNat
    endEpoch := endEpoch.toNat
    sealCount := sealCount.toNat
    merkleRoot, previousSuperSealHash, committeeHash
    wireVersion := rec.version }

def extractSuperSeal (rec : ValidationRecord) : Except RecordError (Option ParsedSuperSeal) :=
  match metaField rec epochOpKey with
  | none => .ok none
  | some op =>
    match op.asStr with
    | none => .error (.wire "epoch_op not a string")
    | some op => if op ≠ .text epochOpSuperSeal then .ok none else (readSuperSeal rec).map some

inductive SuperSealError where
  | integrity (e : SealRecordVerifyError) : SuperSealError
  | notSuperSeal : SuperSealError
  | metaExtract (e : RecordError) : SuperSealError
  | coverage (merkleRoot : Bytes32) (sealCount supplied : ℕ) : SuperSealError

section

variable [Sha3]

def superSealRootFor (sealWireVersion : UInt16) (hashes : List Bytes32) : Bytes32 :=
  if foldV2MinWireVersion ≤ sealWireVersion then root (combineTagged superSealFoldV2NodeTag) hashes
  else root combine hashes

/-- The hashes are those of the super-seal, in whatever order. -/
def verifySuperSealCoverage (superSeal : ParsedSuperSeal) (sealHashes : List Bytes32) : Bool :=
  sealHashes.length = superSeal.sealCount &&
    superSealRootFor superSeal.wireVersion
      (sealHashes.insertionSort fun a b => a.data ≤ b.data) = superSeal.merkleRoot

variable [Unicode] [FloatFormat] [Dilithium] [SecondSignature]

def verifySuperSealFull (expectedRecordHash : Bytes32) (wireBytes : List UInt8)
    (sealHashes : List Bytes32) : Except SuperSealError Unit :=
  match verifySuperSealRecordIntegrity expectedRecordHash wireBytes with
  | .error e => .error (.integrity e)
  | .ok () =>
    match fromBytes wireBytes with
    | .error e => .error (.integrity (.wireDecode e))
    | .ok rec =>
      match extractSuperSeal rec with
      | .error e => .error (.metaExtract e)
      | .ok none => .error .notSuperSeal
      | .ok (some parsed) =>
        if verifySuperSealCoverage parsed sealHashes then .ok ()
        else .error (.coverage parsed.merkleRoot parsed.sealCount sealHashes.length)

end

/-! ### The passes -/

def coverageHeadersResponseTooLarge (returned : ℕ) : Bool := superSealInterval * 16 < returned

/-- What the seeds answer.  The requests for headers are numbered. -/
structure SeedAnswers where
  checkpoints : Option Value
  otherBodies : List Value
  records : Option (List (List UInt8))
  headers : ℕ → Option Value

/-- The fetched records by their ids; the last one of an id stays. -/
def recordsById [Unicode] (wireList : List (List UInt8)) : Table Str (List UInt8) :=
  wireList.foldl (fun byId bytes =>
    match fromBytes bytes with
    | .ok rec => byId.insert rec.id bytes
    | .error _ => byId) ∅

/-- The hashes of the seals in the range of a mark, and that of its last epoch; nothing if a
header has none. -/
def gatherHashes [Unicode] (mark : CheckpointMark) :
    List Value → List Bytes32 → Option Bytes32 → Option (List Bytes32 × Option Bytes32)
  | [], hashes, baseline => some (hashes, baseline)
  | v :: rest, hashes, baseline =>
    match parseHeaderJson v with
    | none => gatherHashes mark rest hashes baseline
    | some h =>
      if h.zone ≠ mark.zone ∨ h.epochNumber < mark.startEpoch ∨ mark.endEpoch < h.epochNumber then
        gatherHashes mark rest hashes baseline
      else
        match h.sealRecordHash with
        | some rh => gatherHashes mark rest (hashes ++ [rh])
            (if h.epochNumber = mark.endEpoch then some rh else baseline)
        | none => none

section

variable [Unicode]

def headersWithin (zone : ZoneId) (startEpoch endEpoch : ℕ) (headers : List Value) :
    List EpochHeader :=
  (headers.filterMap parseHeaderJson).filter fun h =>
    h.zone = zone ∧ startEpoch ≤ h.epochNumber ∧ h.epochNumber ≤ endEpoch

def lastHash (zone : ZoneId) (startEpoch endEpoch : ℕ) (headers : List Value) : Option Bytes32 :=
  ((headersWithin zone startEpoch endEpoch headers).filter
    fun h => h.epochNumber = endEpoch).getLast?.bind (·.sealRecordHash)

/-- The answer has as many headers in the epochs as there are seals, all with their hashes. -/
structure Complete (zone : ZoneId) (startEpoch endEpoch sealCount : ℕ) (headers : List Value) :
    Prop where
  fits : headers.length ≤ superSealInterval * 16
  hashed : ∀ h ∈ headersWithin zone startEpoch endEpoch headers, h.sealRecordHash.isSome = true
  count : (headersWithin zone startEpoch endEpoch headers).length = sealCount

theorem headersWithin_cons (zone : ZoneId) (startEpoch endEpoch : ℕ) (v : Value) (rest : List Value) :
    headersWithin zone startEpoch endEpoch (v :: rest) =
      ((parseHeaderJson v).filter fun h =>
        h.zone = zone ∧ startEpoch ≤ h.epochNumber ∧ h.epochNumber ≤ endEpoch).toList ++
          headersWithin zone startEpoch endEpoch rest := by
  unfold headersWithin
  cases hparse : parseHeaderJson v with
  | none =>
    rw [List.filterMap_cons_none hparse]
    rfl
  | some h =>
    rw [List.filterMap_cons_some hparse, List.filter_cons, Option.filter_some]
    split <;> rfl

/-- A header with a hash in front of headers that all have hashes. -/
theorem lastHash_cons {zone : ZoneId} {startEpoch endEpoch : ℕ} {v : Value} {rest : List Value}
    {h : EpochHeader} {rh : Bytes32} (hcons : headersWithin zone startEpoch endEpoch (v :: rest) =
      h :: headersWithin zone startEpoch endEpoch rest) (hhash : h.sealRecordHash = some rh)
    (hrest : ∀ h' ∈ headersWithin zone startEpoch endEpoch rest, h'.sealRecordHash.isSome = true) :
    lastHash zone startEpoch endEpoch (v :: rest) = (lastHash zone startEpoch endEpoch rest).or
      (if h.epochNumber = endEpoch then some rh else none) := by
  unfold lastHash
  rw [hcons, List.filter_cons]
  split
  · next hepoch =>
    rw [if_pos (of_decide_eq_true hepoch), List.getLast?_cons]
    cases hlast : ((headersWithin zone startEpoch endEpoch rest).filter
        fun h => h.epochNumber = endEpoch).getLast? with
    | none => exact hhash
    | some h' =>
      obtain ⟨y, hy⟩ := Option.isSome_iff_exists.mp
        (hrest h' (List.mem_of_mem_filter (List.mem_of_getLast? hlast)))
      simp [hy]
  · next hepoch =>
    rw [if_neg fun heq => hepoch (decide_eq_true heq), Option.or_none]

/-- **The hashes are those of the headers in the range**, and the last hash of the last epoch is the
one that stays. -/
theorem gatherHashes_eq (mark : CheckpointMark) (headers : List Value) (hashes : List Bytes32)
    (baseline : Option Bytes32) :
    gatherHashes mark headers hashes baseline =
      if ∀ h ∈ headersWithin mark.zone mark.startEpoch mark.endEpoch headers,
          h.sealRecordHash.isSome = true then
        some (hashes ++ (headersWithin mark.zone mark.startEpoch mark.endEpoch headers).filterMap
          (·.sealRecordHash), (lastHash mark.zone mark.startEpoch mark.endEpoch headers).or baseline)
      else none := by
  induction headers generalizing hashes baseline with
  | nil => simp [gatherHashes, headersWithin, lastHash]
  | cons v rest ih =>
    have hcons := headersWithin_cons mark.zone mark.startEpoch mark.endEpoch v rest
    have hpass : headersWithin mark.zone mark.startEpoch mark.endEpoch (v :: rest) =
        headersWithin mark.zone mark.startEpoch mark.endEpoch rest →
        lastHash mark.zone mark.startEpoch mark.endEpoch (v :: rest) =
          lastHash mark.zone mark.startEpoch mark.endEpoch rest := by
      intro hsame
      rw [lastHash, hsame]
      rfl
    rw [gatherHashes]
    cases hparse : parseHeaderJson v with
    | none =>
      rw [hparse] at hcons
      rw [hpass hcons, show headersWithin _ _ _ (v :: rest) = _ from hcons]
      exact ih hashes baseline
    | some h =>
      rw [hparse] at hcons
      dsimp only
      split
      · next hout =>
        have hnot : ¬ decide (h.zone = mark.zone ∧ mark.startEpoch ≤ h.epochNumber ∧
            h.epochNumber ≤ mark.endEpoch) = true := by
          simpa only [decide_eq_true_eq, not_and_or, not_le] using hout
        rw [Option.filter_some, if_neg hnot] at hcons
        rw [hpass hcons, show headersWithin _ _ _ (v :: rest) = _ from hcons]
        exact ih hashes baseline
      · next hin =>
        have hmem : h.zone = mark.zone ∧ mark.startEpoch ≤ h.epochNumber ∧
            h.epochNumber ≤ mark.endEpoch := by simpa [not_or] using hin
        rw [Option.filter_some, if_pos (decide_eq_true hmem), Option.toList_some,
          List.singleton_append] at hcons
        cases hhash : h.sealRecordHash with
        | none =>
          rw [hcons, if_neg]
          intro hall
          have hsome := hall h List.mem_cons_self
          rw [hhash] at hsome
          cases hsome
        | some rh =>
          dsimp only
          rw [ih]
          by_cases hall : ∀ h' ∈ headersWithin mark.zone mark.startEpoch mark.endEpoch rest,
              h'.sealRecordHash.isSome = true
          · have hall' : ∀ h' ∈ headersWithin mark.zone mark.startEpoch mark.endEpoch (v :: rest),
                h'.sealRecordHash.isSome = true := by
              rw [hcons]
              exact List.forall_mem_cons.mpr ⟨by rw [hhash]; rfl, hall⟩
            rw [if_pos hall, if_pos hall', lastHash_cons hcons hhash hall, hcons,
              List.filterMap_cons_some hhash, Option.or_assoc, List.append_assoc]
            split <;> rfl
          · rw [if_neg hall, if_neg]
            rw [hcons]
            exact fun hall' => hall (List.forall_mem_cons.mp hall').2

end

section

variable [Unicode] [FloatFormat] [Sha3] [Dilithium] [SecondSignature]

/-- The marks whose records are signed, with the records. -/
def integrityPass (marks : List CheckpointMark) (byId : Table Str (List UInt8))
    (trustAnchors : List (List UInt8)) : List (CheckpointMark × List UInt8) :=
  marks.filterMap fun m =>
    (byId.lookup m.recordId).bind fun bytes =>
      match classifySuperSealTrust m.recordHash bytes trustAnchors with
      | .ok grade => some ({ m with trustGrade := grade }, bytes)
      | .error _ => none

/-- Check what a mark covers.  A mark whose headers are not there is kept as it is. -/
def coverMark (mark : CheckpointMark) (wireBytes : List UInt8) (body : Option Value) :
    Option CheckpointMark :=
  match body.bind (getKey "headers") with
  | some (.array headers) =>
    if coverageHeadersResponseTooLarge headers.length then some mark
    else
      match gatherHashes mark headers [] none with
      | none => some mark
      | some (hashes, baseline) =>
        if hashes.length ≠ mark.sealCount then some mark
        else
          match verifySuperSealFull mark.recordHash wireBytes hashes with
          | .ok () => some { mark with coverageVerified := true, baselineSealHash := baseline }
          | .error _ => none
  | _ => some mark

/-- The marks of the first three passes, with their records. -/
def keptMarks (answers : SeedAnswers) (trustAnchors : List (List UInt8)) :
    List (CheckpointMark × List UInt8) :=
  let primary := answers.checkpoints.elim [] checkpointsIn
  let marks := (crossVerifyCheckpoints primary answers.otherBodies).1
  answers.records.elim [] fun wireList => integrityPass marks (recordsById wireList) trustAnchors

def acceptedMarks (answers : SeedAnswers) (trustAnchors : List (List UInt8)) :
    List CheckpointMark :=
  (keptMarks answers trustAnchors).zipIdx.filterMap fun e =>
    coverMark e.1.1 e.1.2 (answers.headers e.2)

/-- A mark is installed if it ends later than the one that is there. -/
def installMark (checkpoints : Table ZoneId CheckpointMark) (m : CheckpointMark) :
    Table ZoneId CheckpointMark :=
  if (checkpoints.lookup m.zone).all fun existing => existing.endEpoch < m.endEpoch then
    checkpoints.insert m.zone m
  else checkpoints

def LightState.coldStart (s : LightState) (answers : SeedAnswers)
    (trustAnchors : List (List UInt8)) : LightState :=
  { s with
    checkpoints := (acceptedMarks answers trustAnchors).foldl installMark s.checkpoints
    checkpointSkipAttempted := true }

/-! ### What the passes check -/

variable {wireBytes : List UInt8} {trustAnchors : List (List UInt8)} {m : CheckpointMark}
    {body : Option Value}

theorem verifySealRecord_ok {expected : Bytes32}
    {trusted : List UInt8 → Bool} (h : verifySealRecord wireBytes expected trusted = .ok ()) :
    ∃ rec sig, fromBytes wireBytes = .ok rec ∧ rec.recordHash = expected ∧
      trusted rec.creatorPublicKey = true ∧
      Dilithium.verify rec.signableBytes sig rec.creatorPublicKey = true := by
  unfold verifySealRecord at h
  split at h
  · cases h
  · next rec hrec =>
    split at h
    · cases h
    · next hhash =>
      split at h
      · cases h
      · next sig _ =>
        split at h
        · cases h
        · split at h
          · cases h
          · next htrusted =>
            split at h
            · cases h
            · next hverify =>
              exact ⟨rec, sig, hrec, not_not.mp hhash, not_not.mp htrusted, not_not.mp hverify⟩

/-- A mark earns the grade of a pinned key by a signature with one. -/
theorem classifySuperSealTrust_pinned {recordHash : Bytes32}
    (h : classifySuperSealTrust recordHash wireBytes trustAnchors = .ok .anchorPinned) :
    ∃ rec sig, fromBytes wireBytes = .ok rec ∧ rec.recordHash = recordHash ∧
      rec.creatorPublicKey ∈ trustAnchors ∧
      Dilithium.verify rec.signableBytes sig rec.creatorPublicKey = true := by
  unfold classifySuperSealTrust at h
  split at h
  · cases hverify : verifySuperSealRecordIntegrity recordHash wireBytes with
    | error e =>
      rw [hverify] at h
      cases h
    | ok =>
      rw [hverify] at h
      cases h
  · cases hverify : verifySealRecordAgainstAnchor wireBytes recordHash trustAnchors with
    | error e =>
      rw [hverify] at h
      cases h
    | ok =>
      obtain ⟨rec, sig, hrec, hhash, htrusted, hsig⟩ := verifySealRecord_ok hverify
      exact ⟨rec, sig, hrec, hhash, List.contains_iff_mem.mp htrusted, hsig⟩

theorem mem_integrityPass {marks : List CheckpointMark} {byId : Table Str (List UInt8)}
    {e : CheckpointMark × List UInt8}
    (h : e ∈ integrityPass marks byId trustAnchors) :
    ∃ m ∈ marks, e.1 = { m with trustGrade := e.1.trustGrade } ∧
      classifySuperSealTrust e.1.recordHash e.2 trustAnchors = .ok e.1.trustGrade := by
  obtain ⟨m, hm, hkept⟩ := List.mem_filterMap.mp h
  obtain ⟨bytes, -, hmatch⟩ := Option.bind_eq_some_iff.mp hkept
  split at hmatch
  · next grade hgrade =>
    obtain rfl := Option.some.inj hmatch
    exact ⟨m, hm, rfl, hgrade⟩
  · cases hmatch

omit [FloatFormat] [Sha3] [Dilithium] [SecondSignature] in
theorem mem_of_mem_crossVerify {primary : List CheckpointMark} {otherBodies : List Value}
    (h : m ∈ (crossVerifyCheckpoints primary otherBodies).1) : m ∈ primary :=
  List.mem_of_mem_filter h

/-- The last pass keeps a mark as it is if the answer is not complete, and sets its baseline if it
is. -/
theorem coverMark_eq_some {mark : CheckpointMark} (h : coverMark mark wireBytes body = some m) :
    m = mark ∧ (∀ headers, body.bind (getKey "headers") = some (.array headers) →
        ¬ Complete mark.zone mark.startEpoch mark.endEpoch mark.sealCount headers) ∨
      ∃ headers, body.bind (getKey "headers") = some (.array headers) ∧
        Complete mark.zone mark.startEpoch mark.endEpoch mark.sealCount headers ∧
        m = { mark with
          coverageVerified := true
          baselineSealHash := lastHash mark.zone mark.startEpoch mark.endEpoch headers } := by
  unfold coverMark at h
  split at h
  · next headers hheaders =>
    -- in each branch that keeps the mark, something that a complete answer has is missing
    have hkeep (hgaps : ¬ Complete mark.zone mark.startEpoch mark.endEpoch mark.sealCount headers)
        (hmark : some mark = some m) : m = mark ∧ ∀ headers', body.bind (getKey "headers") =
          some (.array headers') →
        ¬ Complete mark.zone mark.startEpoch mark.endEpoch mark.sealCount headers' := by
      refine ⟨(Option.some.inj hmark).symm, fun headers' hheaders' => ?_⟩
      rw [hheaders] at hheaders'
      rwa [← Value.array.inj (Option.some.inj hheaders')]
    rw [gatherHashes_eq, List.nil_append, Option.or_none] at h
    split at h
    · next hlarge =>
      exact .inl (hkeep (fun hcomplete => not_le.mpr (of_decide_eq_true hlarge) hcomplete.fits) h)
    · next hfits =>
      split at h
      · next hmissing =>
        refine .inl (hkeep (fun hcomplete => ?_) h)
        rw [if_pos hcomplete.hashed] at hmissing
        cases hmissing
      · next hashes baseline hgathered =>
        split at hgathered
        · next hall =>
          obtain ⟨rfl, rfl⟩ := Prod.mk.inj (Option.some.inj hgathered)
          rw [List.filterMap_length_eq_length.mpr hall] at h
          split at h
          · next hcount => exact .inl (hkeep (fun hcomplete => hcount hcomplete.count) h)
          · next hcount =>
            split at h
            · refine .inr ⟨headers, hheaders, ⟨?_, hall, not_not.mp hcount⟩, (Option.some.inj h).symm⟩
              exact not_lt.mp fun hlarge => hfits (decide_eq_true hlarge)
            · cases h
        · cases hgathered
  · next hnone =>
    exact .inl ⟨(Option.some.inj h).symm, fun headers hheaders => absurd hheaders (hnone headers)⟩

theorem coverMark_keeps {mark : CheckpointMark} (h : coverMark mark wireBytes body = some m) :
    m.trustGrade = mark.trustGrade ∧ m.recordHash = mark.recordHash := by
  rcases coverMark_eq_some h with ⟨rfl, -⟩ | ⟨headers, -, -, rfl⟩ <;> exact ⟨rfl, rfl⟩

/-- The mark is made of an entry of the first answer and of an answer with headers. -/
structure MadeOf (answers : SeedAnswers) (trustAnchors : List (List UInt8)) (m : CheckpointMark)
    (v : Value) (i : ℕ) : Prop where
  served : v ∈ answers.checkpoints.elim [] entriesIn
  checked : ∃ e bytes, parseCheckpointJson v = some e ∧
    (keptMarks answers trustAnchors)[i]? = some ({ e with trustGrade := m.trustGrade }, bytes) ∧
    coverMark { e with trustGrade := m.trustGrade } bytes (answers.headers i) = some m

/-- **What an accepted mark is made of**: an entry that is served, and a record with the hash in it. -/
theorem exists_madeOf {answers : SeedAnswers} (h : m ∈ acceptedMarks answers trustAnchors) :
    (∃ v i, MadeOf answers trustAnchors m v i) ∧
      ∃ bytes, classifySuperSealTrust m.recordHash bytes trustAnchors = .ok m.trustGrade := by
  obtain ⟨⟨⟨mark, bytes⟩, i⟩, hkept, hcover⟩ := List.mem_filterMap.mp h
  rw [List.mem_zipIdx_iff_getElem?] at hkept
  have hmem : (mark, bytes) ∈ keptMarks answers trustAnchors := List.mem_of_getElem? hkept
  cases hrecords : answers.records with
  | none =>
    rw [keptMarks, hrecords] at hmem
    cases hmem
  | some wireList =>
    rw [keptMarks, hrecords] at hmem
    obtain ⟨e, he, hmark, hclassify⟩ := mem_integrityPass hmem
    have hprimary := mem_of_mem_crossVerify he
    cases hbody : answers.checkpoints with
    | none =>
      rw [hbody] at hprimary
      cases hprimary
    | some body =>
      rw [hbody, Option.elim_some, checkpointsIn_eq] at hprimary
      obtain ⟨v, hv, hparse⟩ := List.mem_filterMap.mp hprimary
      obtain ⟨hgrade, hhash⟩ := coverMark_keeps hcover
      dsimp only at hmark hclassify
      rw [hgrade, hhash]
      refine ⟨⟨v, i, ?_, e, bytes, hparse, ?_, ?_⟩, bytes, hclassify⟩
      · rw [hbody]
        exact hv
      · rw [hgrade, ← hmark]
        exact hkept
      · rw [hgrade, ← hmark]
        exact hcover

omit [Unicode] [FloatFormat] [Sha3] [Dilithium] [SecondSignature] in
theorem lookup_foldl_installMark {checkpoints : Table ZoneId CheckpointMark}
    {marks : List CheckpointMark} {zone : ZoneId}
    (h : (marks.foldl installMark checkpoints).lookup zone = some m) :
    checkpoints.lookup zone = some m ∨ m ∈ marks := by
  induction marks generalizing checkpoints with
  | nil => exact Or.inl h
  | cons m' marks ih =>
    rcases ih h with hlookup | hmem
    · unfold installMark at hlookup
      split at hlookup
      · rw [Table.lookup_insert_eq] at hlookup
        split at hlookup
        · obtain rfl := Option.some.inj hlookup
          exact Or.inr List.mem_cons_self
        · exact Or.inl hlookup
      · exact Or.inl hlookup
    · exact Or.inr (List.mem_cons_of_mem _ hmem)

/-! ### Authentic marks -/

variable (signed : Set ValidationRecord) (sealHashes : ValidationRecord → List Bytes32)

/-- The records that were signed with the pinned keys, and the hashes of the seals that each
super-seal among them is over, in the order of the epochs.  There are no other signatures, and
SHA3-256 tells the records apart. -/
structure Signing (trustAnchors : List (List UInt8)) : Prop where
  unforgeable : ∀ bytes rec sig, fromBytes bytes = .ok rec →
    rec.creatorPublicKey ∈ trustAnchors →
    Dilithium.verify rec.signableBytes sig rec.creatorPublicKey = true →
    ∃ r ∈ signed, r.signableBytes = rec.signableBytes
  covers : ∀ r ∈ signed, ∀ parsed, extractSuperSeal r = .ok (some parsed) →
    verifySuperSealCoverage parsed (sealHashes r) = true
  injOn : Set.InjOn Smt.sha3_256 {x | ∃ r ∈ signed, r.signableBytes = x}

/-- A signed super-seal has the zone, the epochs and the number of seals of the mark; if the coverage
was verified, the baseline is the last of the hashes that the super-seal is over. -/
def AuthenticMark (m : CheckpointMark) : Prop :=
  ∃ r ∈ signed, r.recordHash = m.recordHash ∧ ∃ parsed, extractSuperSeal r = .ok (some parsed) ∧
    parsed.zone = m.zone ∧ parsed.startEpoch = m.startEpoch ∧ parsed.endEpoch = m.endEpoch ∧
    parsed.sealCount = m.sealCount ∧
    (m.coverageVerified = true → verifySuperSealCoverage parsed (sealHashes r) = true ∧
      m.baselineSealHash = (sealHashes r).getLast?)

/-- The entry of an answer says of the record what the super-seal says. -/
structure EntrySays (v : Value) (parsed : ParsedSuperSeal) : Prop where
  zone : ((getKey "zone" v).bind Value.asStr).map (fun zone => ZoneId.new zone.bytes) =
    some parsed.zone
  startEpoch : u64Key v "start_epoch" = some parsed.startEpoch
  endEpoch : u64Key v "end_epoch" = some parsed.endEpoch
  sealCount : u64Key v "seal_count" = some parsed.sealCount

/-- If the answer has all headers of the super-seal, the last one that it gives for the last epoch is
that of the last seal. -/
def HeadersSay (body : Option Value) (parsed : ParsedSuperSeal) (hashes : List Bytes32) : Prop :=
  ∀ headers, body.bind (getKey "headers") = some (.array headers) →
    Complete parsed.zone parsed.startEpoch parsed.endEpoch parsed.sealCount headers →
    lastHash parsed.zone parsed.startEpoch parsed.endEpoch headers = hashes.getLast?

/-- The entry and the headers agree with the super-seal that was signed under the record hash of the
entry. -/
def Truthful (v : Value) (body : Option Value) : Prop :=
  ∃ r ∈ signed, hexKey v "record_hash" = some r.recordHash ∧
    ∃ parsed, extractSuperSeal r = .ok (some parsed) ∧ EntrySays v parsed ∧
      HeadersSay body parsed (sealHashes r)

variable {signed sealHashes}

/-- The headers agree with a super-seal exactly if the baseline that comes of them does. -/
theorem headersSay_iff {mark : CheckpointMark}
    (hcover : coverMark mark wireBytes body = some m) (hfresh : mark.coverageVerified = false)
    {parsed : ParsedSuperSeal} (hzone : parsed.zone = mark.zone)
    (hstart : parsed.startEpoch = mark.startEpoch) (hend : parsed.endEpoch = mark.endEpoch)
    (hcount : parsed.sealCount = mark.sealCount) (hashes : List Bytes32) :
    HeadersSay body parsed hashes ↔
      (m.coverageVerified = true → m.baselineSealHash = hashes.getLast?) := by
  rw [HeadersSay, hzone, hstart, hend, hcount]
  rcases coverMark_eq_some hcover with ⟨rfl, hgaps⟩ | ⟨headers, hheaders, hcomplete, rfl⟩
  · rw [hfresh]
    refine iff_of_true (fun headers hheaders hcomplete => ?_) fun h => by cases h
    exact absurd hcomplete (hgaps headers hheaders)
  · refine ⟨fun h _ => h headers hheaders hcomplete, fun h headers' hheaders' _ => ?_⟩
    rw [hheaders] at hheaders'
    obtain rfl := Value.array.inj (Option.some.inj hheaders')
    exact h rfl

/-- **A mark is authentic exactly if what it is made of is true.** -/
theorem MadeOf.authentic_iff_truthful {answers : SeedAnswers} {trustAnchors : List (List UInt8)}
    {m : CheckpointMark} {v : Value} {i : ℕ} (h : MadeOf answers trustAnchors m v i)
    (hsigning : Signing signed sealHashes trustAnchors) :
    AuthenticMark signed sealHashes m ↔ Truthful signed sealHashes v (answers.headers i) := by
  obtain ⟨-, e, bytes, hparse, -, hcover⟩ := h
  obtain ⟨hzone, hstart, hend, hcount, hhash, hfresh⟩ := parseCheckpointJson_eq_some hparse
  obtain ⟨hmz, hms, hme, hmc, hmh⟩ : m.zone = e.zone ∧ m.startEpoch = e.startEpoch ∧
      m.endEpoch = e.endEpoch ∧ m.sealCount = e.sealCount ∧ m.recordHash = e.recordHash := by
    rcases coverMark_eq_some hcover with ⟨heq, -⟩ | ⟨headers, -, -, heq⟩ <;> rw [heq] <;>
      exact ⟨rfl, rfl, rfl, rfl, rfl⟩
  unfold AuthenticMark Truthful
  rw [hmz, hms, hme, hmc, hmh]
  constructor
  · rintro ⟨r, hr, hrhash, parsed, hparsed, hz, hs, he, hc, hbaseline⟩
    refine ⟨r, hr, hrhash ▸ hhash, parsed, hparsed,
      ⟨hz ▸ hzone, hs ▸ hstart, he ▸ hend, hc ▸ hcount⟩, ?_⟩
    exact (headersSay_iff hcover hfresh hz hs he hc _).mpr fun hverified => (hbaseline hverified).2
  · rintro ⟨r, hr, hrhash, parsed, hparsed, hentry, hheaders⟩
    have hz : parsed.zone = e.zone := Option.some.inj (hentry.zone.symm.trans hzone)
    have hs : parsed.startEpoch = e.startEpoch := Option.some.inj (hentry.startEpoch.symm.trans hstart)
    have he : parsed.endEpoch = e.endEpoch := Option.some.inj (hentry.endEpoch.symm.trans hend)
    have hc : parsed.sealCount = e.sealCount := Option.some.inj (hentry.sealCount.symm.trans hcount)
    refine ⟨r, hr, Option.some.inj (hrhash.symm.trans hhash), parsed, hparsed, hz, hs, he, hc, ?_⟩
    intro hverified
    exact ⟨hsigning.covers r hr parsed hparsed,
      (headersSay_iff hcover hfresh hz hs he hc _).mp hheaders hverified⟩

/-- The record of a mark that is installed with the grade of a pinned key was signed with one,
whatever the seeds answer, and nothing else was signed under its hash.  The mark itself is
authentic if and only if the entry that it was read from and the headers that came for it agree
with a super-seal that was signed. -/
theorem authenticMark_iff {trustAnchors : List (List UInt8)}
    (hsigning : Signing signed sealHashes trustAnchors) (s : LightState) (answers : SeedAnswers)
    (zone : ZoneId) (m : CheckpointMark)
    (hm : (s.coldStart answers trustAnchors).checkpoints.lookup zone = some m)
    (hnew : s.checkpoints.lookup zone ≠ some m) (hgrade : m.trustGrade = .anchorPinned) :
    (∃ r ∈ signed, r.recordHash = m.recordHash ∧
      ∀ r' ∈ signed, r'.recordHash = m.recordHash → r'.signableBytes = r.signableBytes) ∧
    (∃ v i, MadeOf answers trustAnchors m v i) ∧
    ∀ v i, MadeOf answers trustAnchors m v i →
      (AuthenticMark signed sealHashes m ↔ Truthful signed sealHashes v (answers.headers i)) := by
  have hmem := (lookup_foldl_installMark hm).resolve_left hnew
  obtain ⟨hmade, bytes, hclassify⟩ := exists_madeOf hmem
  rw [hgrade] at hclassify
  obtain ⟨rec, sig, hrec, hhash, htrusted, hsig⟩ := classifySuperSealTrust_pinned hclassify
  obtain ⟨r, hr, hsame⟩ := hsigning.unforgeable bytes rec sig hrec htrusted hsig
  have hrhash : r.recordHash = m.recordHash := (congrArg Smt.sha3_256 hsame).trans hhash
  refine ⟨⟨r, hr, hrhash, fun r' hr' hhash' => ?_⟩, hmade,
    fun v i hvi => hvi.authentic_iff_truthful hsigning⟩
  exact hsigning.injOn ⟨r', hr', rfl⟩ ⟨r, hr, rfl⟩ (hhash'.trans hrhash.symm)

end

/-! ### A mark for another zone -/

section

attribute [local instance] Record.asciiCase Record.bitsFormat Smt.guardedSha3

/-- A super-seal over the seal of epoch 1 of zone `a`. -/
def superSeal : ValidationRecord :=
  { Record.sampleRecord [] with
    id := .text "super"
    signature := some [1]
    metadata := [
      (.text "epoch_op", .string (.text "super_seal")),
      (.text "super_seal_count", .number (.int 1)),
      (.text "super_seal_end_epoch", .number (.int 1)),
      (.text "super_seal_merkle_root", .string (.hex ZoneTree.recordHash.data)),
      (.text "super_seal_prev_hash", .string (.hex Bytes32.zero.data)),
      (.text "super_seal_start_epoch", .number (.int 1)),
      (.text "super_seal_zone", .string (.text "a"))] }

def superHash : Bytes32 where
  data := [
    0xba, 0x70, 0xfa, 0x88, 0x86, 0xcd, 0xa9, 0xa2,
    0x57, 0xd2, 0x75, 0xc4, 0x6d, 0xce, 0x52, 0x6a,
    0x68, 0x1e, 0x0e, 0x88, 0x11, 0x9f, 0xd3, 0x71,
    0xc6, 0xbb, 0xbc, 0xcd, 0xfd, 0x50, 0xf4, 0x05]
  size_eq := rfl

def superSealFields : ParsedSuperSeal :=
  ⟨⟨(Str.text "a").bytes⟩, 1, 1, 1, ZoneTree.recordHash, Bytes32.zero, Bytes32.zero, 7⟩

@[reducible] def oneSignature : Dilithium := ⟨fun message _ _ => message = superSeal.signableBytes⟩

@[reducible] def noSecondSignature : SecondSignature := ⟨fun _ _ _ => false, fun _ _ _ => false⟩

attribute [local instance] oneSignature noSecondSignature

/-- The pinned key, which the super-seal has. -/
def pinnedKeys : List (List UInt8) := [[9]]

def oneHash (_ : ValidationRecord) : List Bytes32 := [ZoneTree.recordHash]

theorem extract_superSeal : extractSuperSeal superSeal = .ok (some superSealFields) := by
  rfl

theorem signing_superSeal : Signing {superSeal} oneHash pinnedKeys where
  unforgeable _ rec _ _ _ h := ⟨superSeal, rfl, (of_decide_eq_true h).symm⟩
  covers := by
    rintro r rfl parsed hparsed
    obtain rfl := Option.some.inj (Except.ok.inj (extract_superSeal.symm.trans hparsed))
    decide +kernel
  injOn := by
    rintro x ⟨r, rfl, rfl⟩ y ⟨r', rfl, rfl⟩ _
    rfl

/-- An entry of an answer with checkpoints, for the record of the super-seal. -/
def entryOf (zone : String) (startEpoch endEpoch sealCount : ℤ) : Value := .object [
  (.text "zone", .string (.text zone)),
  (.text "start_epoch", .number (.int startEpoch)),
  (.text "end_epoch", .number (.int endEpoch)),
  (.text "seal_count", .number (.int sealCount)),
  (.text "record_id", .string (.text "super")),
  (.text "record_hash", .string (.hex superHash.data))]

/-- A seed that answers with an entry, the super-seal and headers. -/
def answersOf (entry : Value) (headers : Option Value) : SeedAnswers where
  checkpoints := some (.object [(.text "checkpoints", .array [entry])])
  otherBodies := []
  records := some [superSeal.toBytes.getD []]
  headers := fun _ => headers

/-- The mark of an entry for epochs 7 to 9 of zone `b`. -/
def relabelledMark : CheckpointMark :=
  ⟨⟨(Str.text "b").bytes⟩, 7, 9, 3, .text "super", superHash, Bytes32.zero, false,
    .anchorPinned, none⟩

/-- The only super-seal that was signed is that of epoch 1 of zone `a`.  With its record a seed
has a mark for epochs 7 to 9 of zone `b` installed as pinned. -/
theorem authenticMark_relabelled :
    Signing {superSeal} oneHash pinnedKeys ∧
    (LightState.new.coldStart (answersOf (entryOf "b" 7 9 3) none) pinnedKeys).checkpoints.lookup
      relabelledMark.zone = some relabelledMark ∧
    relabelledMark.trustGrade = .anchorPinned ∧
    ¬ AuthenticMark {superSeal} oneHash relabelledMark := by
  refine ⟨signing_superSeal, by decide +kernel, rfl, ?_⟩
  rintro ⟨r, rfl, -, parsed, hparsed, hzone, -⟩
  obtain rfl := Option.some.inj (Except.ok.inj (extract_superSeal.symm.trans hparsed))
  exact absurd hzone (by decide +kernel)

def coveredHeader : Value := .object [
  (.text "zone", .string (.text "a")),
  (.text "epoch_number", .number (.int 1)),
  (.text "merkle_root", .string (.hex Bytes32.zero.data)),
  (.text "previous_seal_hash", .string (.hex Bytes32.zero.data)),
  (.text "record_count", .number (.int 0)),
  (.text "start", .number (.int 0)),
  (.text "end", .number (.int 1)),
  (.text "seal_record_hash", .string (.hex ZoneTree.recordHash.data))]

def honestAnswers : SeedAnswers :=
  answersOf (entryOf "a" 1 1 1) (some (.object [(.text "headers", .array [coveredHeader])]))

def honestMark : CheckpointMark :=
  ⟨⟨(Str.text "a").bytes⟩, 1, 1, 1, .text "super", superHash, Bytes32.zero, true,
    .anchorPinned, some ZoneTree.recordHash⟩

theorem madeOf_honest : MadeOf honestAnswers pinnedKeys honestMark (entryOf "a" 1 1 1) 0 := by
  refine ⟨List.mem_singleton_self _, { honestMark with
    coverageVerified := false, trustGrade := .reference, baselineSealHash := none },
    superSeal.toBytes.getD [], ?_, ?_, ?_⟩ <;> decide +kernel

/-- The mark of a seed that tells the truth is installed, and authentic. -/
theorem authenticMark_iff_honest :
    (LightState.new.coldStart honestAnswers pinnedKeys).checkpoints.lookup honestMark.zone =
      some honestMark ∧ AuthenticMark {superSeal} oneHash honestMark := by
  have hinstalled : (LightState.new.coldStart honestAnswers pinnedKeys).checkpoints.lookup
      honestMark.zone = some honestMark := by decide +kernel
  refine ⟨hinstalled, ((authenticMark_iff signing_superSeal LightState.new honestAnswers _ _
    hinstalled (fun h => nomatch h) rfl).2.2 _ _ madeOf_honest).mpr ?_⟩
  refine ⟨superSeal, rfl, by decide +kernel, superSealFields, extract_superSeal,
    ⟨by decide +kernel, by decide +kernel, by decide +kernel, by decide +kernel⟩, ?_⟩
  rintro headers hheaders -
  have hserved : (honestAnswers.headers 0).bind (getKey "headers") = some (.array [coveredHeader]) := by
    rfl
  obtain rfl := Value.array.inj (Option.some.inj (hserved.symm.trans hheaders))
  decide +kernel

end

end ElaraMesh.Light
