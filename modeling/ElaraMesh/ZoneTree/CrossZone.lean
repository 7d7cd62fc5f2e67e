import ElaraMesh.ZoneTree.Inclusion
import ElaraMesh.Record.Received
import ElaraMesh.Consensus.State
import ElaraMesh.Zones.Registry

/-!
# Proofs for other zones

A record is inserted into the tree of a zone when it is ingested, under the hash of its signed
bytes.  A proof for another zone is made for the content hash of the record, out of the tree as
it stands, and anchored in the checkpoint of the latest epoch seal of the zone.

The two hashes are different ones: a proof is made only if the content hash of the record is the
record hash of some record of the tree.

## Main results

* `shows_tree` — after every history the tree of a zone is that over the inserted records.
* `crossZoneProof_iff` — when a proof is made and verifies.
* `crossZoneProof_missing` — a record that was inserted and has no proof.
-/

namespace ElaraMesh.ZoneTree

open Record (Str Value Unicode ZoneId ValidationRecord FloatFormat hexDecode parseDigits)
open Smt (Bytes32 Sha3 sha3_256 emptyHash)
open Consensus (zoneFromLegacy forRecordDynamic)
open Zones (ZoneRegistry)

/-! ### Zones in keys -/

/-- The number a path consists of: digits, with a plus sign in front or not. -/
def legacyValue (zone : ZoneId) : Option ℕ :=
  let digits := if zone.path.head? = some 0x2b then zone.path.tail else zone.path
  if digits = [] then none else parseDigits 0 digits

/-- What the rows of a zone are kept under. -/
def toKeyBytes [Sha3] (zone : ZoneId) : List UInt8 :=
  match legacyValue zone with
  | some n => Framing.bigEndian 8 n
  | none => (sha3_256 zone.path).data.take 8

/-! ### Epoch seals -/

def epochOpKey : String := "epoch_op"

def metaField (rec : ValidationRecord) (key : String) : Option Value :=
  rec.metadata.lookup (.text key)

/-- A hash in hexadecimal digits. -/
def hexField (rec : ValidationRecord) (key : String) : Option Bytes32 := do
  let text ← (metaField rec key).bind Value.asStr
  let data ← hexDecode text.bytes
  hash32 data

/-- A zone, by its path or by a number. -/
def readZone [Unicode] : Value → Option ZoneId
  | .string s => some (ZoneId.new s.bytes)
  | v => v.asU64.map fun n => zoneFromLegacy n.toNat

structure ParsedEpochSeal where
  zone : ZoneId
  epochNumber : ℕ
  /-- The checkpoint of the record tree of the zone; old seals have none. -/
  sparseMerkleRoot : Option Bytes32

/-- The epoch seal in a record.  A record that is none and one that lacks a field are not told
apart. -/
def extractEpochSeal [Unicode] (rec : ValidationRecord) : Option ParsedEpochSeal := do
  let op ← (metaField rec epochOpKey).bind Value.asStr
  guard (op = .text "seal")
  let zone ← (metaField rec "epoch_zone").bind readZone
  let epochNumber ← (metaField rec "epoch_number").bind Value.asU64
  let _ ← (metaField rec "epoch_start").bind Value.asF64
  let _ ← (metaField rec "epoch_end").bind Value.asF64
  let _ ← (metaField rec "epoch_record_count").bind Value.asU64
  let _ ← hexField rec "epoch_merkle_root"
  let _ ← hexField rec "epoch_previous_seal"
  return ⟨zone, epochNumber.toNat, hexField rec "epoch_sparse_merkle_root"⟩

/-! ### The store -/

/-- The parts of the store that proofs are made from. -/
structure Storage where
  records : Table Str ValidationRecord
  /-- The ids by their times, the newest first. -/
  timestampIndex : List (F64 × Str)
  rotationZonePins : Table Str Str
  /-- The rows of the record trees, under the key of the zone. -/
  merkle : Table (List UInt8) MerkleRows

def Storage.empty : Storage := ⟨∅, [], ∅, ∅⟩

/-- Ids that are not older than `since`, the newest first and at most `limit`. -/
def recentRecordIds (since : F64) : ℕ → List (F64 × Str) → List Str
  | _, [] => []
  | limit, (ts, rid) :: rest =>
    if ts.lt since then []
    else if rid = Str.empty then recentRecordIds since limit rest
    else if limit ≤ 1 then [rid]
    else rid :: recentRecordIds since (limit - 1) rest

structure LatestSealInfo where
  recordId : Str
  f3SparseRoot : Option Bytes32
  epochNumber : ℕ

structure CrossZoneProof where
  recordId : Str
  recordHash : Bytes32
  sourceZone : ZoneId
  targetZone : ZoneId
  targetEpoch : ℕ
  merkleProof : SparseMerkleProof
  sealMerkleRoot : Bytes32
  sealRecordId : Str

structure CrossZoneVerification where
  proofValid : Bool
  rootMatchesSeal : Bool
  zoneMatches : Bool
  leafMatches : Bool
  verified : Bool

def verifyCrossZoneProof [Sha3] (proof : CrossZoneProof) : CrossZoneVerification :=
  let proofValid := verifyProof proof.merkleProof
  let rootMatchesSeal := decide (proof.merkleProof.root = proof.sealMerkleRoot)
  let zoneMatches := decide (proof.merkleProof.zone = proof.targetZone)
  let leafMatches := decide (proof.merkleProof.leaf = proof.recordHash)
  { proofValid, rootMatchesSeal, zoneMatches, leafMatches
    verified := proofValid && rootMatchesSeal && zoneMatches && leafMatches }

namespace Storage

variable [Sha3]

def tree (s : Storage) (zone : ZoneId) : SparseMerkleTree :=
  .new ((s.merkle.lookup (toKeyBytes zone)).getD .empty) zone

/-- Seconds in seven days. -/
def sealScanWindow : F64 := F64.ofNat (7 * 86400)

section

variable [Unicode]

/-- Keep the seal of a record if it is one of the zone and newer. -/
def newerSeal (s : Storage) (zone : ZoneId) (best : Option LatestSealInfo) (rid : Str) :
    Option LatestSealInfo :=
  match (s.records.lookup rid).bind extractEpochSeal with
  | none => best
  | some parsed =>
    if parsed.zone = zone ∧ best.all fun b => b.epochNumber < parsed.epochNumber then
      some ⟨rid, parsed.sparseMerkleRoot, parsed.epochNumber⟩
    else best

/-- The latest epoch seal of a zone among the 2000 newest records of the last seven days. -/
def findLatestSealForZone (s : Storage) (now : F64) (zone : ZoneId) : Option LatestSealInfo :=
  (recentRecordIds (now.sub sealScanWindow) 2000 s.timestampIndex).foldl (s.newerSeal zone) none

/-- The zone a record belongs to: that of its lineage if it is pinned, as the registry has it
now. -/
def sourceZone (s : Storage) (zoneCount : ℕ) (registry : Option ZoneRegistry) (recordId : Str) :
    ZoneId :=
  let routeId := (s.rotationZonePins.lookup recordId).getD recordId
  let naive := forRecordDynamic routeId zoneCount
  match registry with
  | some reg => reg.resolve naive (sha3_256 routeId.bytes)
  | none => naive

def generateCrossZoneProof (s : Storage) (now : F64) (zoneCount : ℕ) (recordId : Str)
    (targetZone : ZoneId) (registry : Option ZoneRegistry) : Option CrossZoneProof := do
  let rec ← s.records.lookup recordId
  let recordHash ← hash32 rec.contentHash
  let merkleProof ← (s.tree targetZone).proof recordHash
  let sealInfo ← s.findLatestSealForZone now targetZone
  let sealMerkleRoot ← sealInfo.f3SparseRoot
  return {
    recordId, recordHash, targetZone, merkleProof, sealMerkleRoot
    sourceZone := s.sourceZone zoneCount registry recordId
    targetEpoch := sealInfo.epochNumber
    sealRecordId := sealInfo.recordId }

theorem generateCrossZoneProof_eq_some {s : Storage} {now : F64} {zoneCount : ℕ} {recordId : Str}
    {targetZone : ZoneId} {registry : Option ZoneRegistry} {proof : CrossZoneProof} :
    s.generateCrossZoneProof now zoneCount recordId targetZone registry = some proof ↔
      ∃ rec, s.records.lookup recordId = some rec ∧ ∃ recordHash,
        hash32 rec.contentHash = some recordHash ∧ ∃ merkleProof,
        (s.tree targetZone).proof recordHash = some merkleProof ∧ ∃ info,
        s.findLatestSealForZone now targetZone = some info ∧ ∃ root,
        info.f3SparseRoot = some root ∧
        ⟨recordId, recordHash, s.sourceZone zoneCount registry recordId, targetZone,
          info.epochNumber, merkleProof, root, info.recordId⟩ = proof := by
  simp only [generateCrossZoneProof, Option.bind_eq_bind, Option.bind_eq_some_iff,
    Option.pure_def, Option.some.injEq]

end

/-- What ingestion does to the tree of a zone: epoch records and machines with little memory
are left out. -/
def insertRecord [FloatFormat] (s : Storage) (ramGb : ℕ) (rec : ValidationRecord)
    (zone : ZoneId) : Storage :=
  if ramGb > 2 ∧ (metaField rec epochOpKey).isNone then
    { s with
      merkle := s.merkle.insert (toKeyBytes zone)
        ((s.tree zone).insert rec.recordHash).commit.storage }
  else s

end Storage

/-! ### Histories -/

inductive Event where
  | ingest (ramGb : ℕ) (rec : ValidationRecord) (zone : ZoneId)
  /-- Anything is written to the other parts. -/
  | write (records : Table Str ValidationRecord) (timestampIndex : List (F64 × Str))
    (rotationZonePins : Table Str Str)

section

variable [Sha3] [FloatFormat]

namespace Storage

def step (s : Storage) : Event → Storage
  | .ingest ramGb rec zone => s.insertRecord ramGb rec zone
  | .write records timestampIndex rotationZonePins =>
    { s with records, timestampIndex, rotationZonePins }

def run (events : List Event) : Storage := events.foldl step empty

end Storage

def Event.inserted (key : List UInt8) : Event → Finset Bytes32
  | .ingest ramGb rec zone =>
    if (ramGb > 2 ∧ (metaField rec epochOpKey).isNone) ∧ toKeyBytes zone = key then {rec.recordHash}
    else ∅
  | .write _ _ _ => ∅

/-- The record hashes that were inserted into the tree under a key. -/
def inserted (key : List UInt8) (events : List Event) : Finset Bytes32 :=
  events.foldl (fun hashes e => hashes ∪ e.inserted key) ∅

theorem inserted_concat (key : List UInt8) (events : List Event) (e : Event) :
    inserted key (events ++ [e]) = inserted key events ∪ e.inserted key := by
  rw [inserted, List.foldl_append]
  rfl

omit [FloatFormat] in
/-- What a store shows does not depend on the name of the zone. -/
theorem Shows.rename {rows : MerkleRows} {zone zone' : ZoneId} {present : Finset Bytes32}
    (h : Shows (.new rows zone) present) : Shows (.new rows zone') present :=
  ⟨h.node, h.contains, h.count⟩

theorem Shows.event {s : Storage} {zone : ZoneId} {present : Finset Bytes32} {e : Event}
    (h : ∀ zone', toKeyBytes zone' = toKeyBytes zone → Shows (s.tree zone') present)
    (hapart : Apart ↑(present ∪ e.inserted (toKeyBytes zone))) :
    Shows ((s.step e).tree zone) (present ∪ e.inserted (toKeyBytes zone)) := by
  cases e with
  | write records timestampIndex rotationZonePins =>
    rw [Event.inserted, Finset.union_empty]
    exact h zone rfl
  | ingest ramGb rec zone' =>
    rw [Event.inserted] at hapart ⊢
    rw [Storage.step, Storage.insertRecord]
    by_cases hok : ramGb > 2 ∧ (metaField rec epochOpKey).isNone
    · rw [if_pos hok]
      by_cases hkey : toKeyBytes zone' = toKeyBytes zone
      · rw [if_pos ⟨hok, hkey⟩] at hapart ⊢
        rw [Finset.union_comm, ← Finset.insert_eq] at hapart ⊢
        rw [Storage.tree, hkey, AList.lookup_insert, Option.getD_some]
        exact ((h zone' hkey).insert hapart).commit.rename
      · rw [if_neg fun hc => hkey hc.2, Finset.union_empty, Storage.tree,
          AList.lookup_insert_ne (Ne.symm hkey)]
        exact h zone rfl
    · rw [if_neg hok, if_neg fun hc => hok hc.1, Finset.union_empty]
      exact h zone rfl

/-- After every history the tree of a zone is that over the inserted records. -/
theorem shows_tree {events : List Event} {zone : ZoneId}
    (hapart : Apart ↑(inserted (toKeyBytes zone) events)) :
    Shows ((Storage.run events).tree zone) (inserted (toKeyBytes zone) events) := by
  induction events using List.reverseRecOn generalizing zone with
  | nil => exact shows_new zone
  | append_singleton events e ih =>
    rw [inserted_concat] at hapart ⊢
    rw [Storage.run, List.foldl_append]
    refine Shows.event (fun zone' hkey => ?_) hapart
    have hbefore := hapart.mono (Finset.coe_subset.mpr (Finset.subset_union_left))
    rw [← hkey] at hbefore ⊢
    exact ih hbefore

/-! ### When a proof is made -/

omit [FloatFormat] in
theorem Shows.proof_eq_none {t : SparseMerkleTree} {present : Finset Bytes32} (h : Shows t present)
    {l : Bytes32} (hl : l ∉ present) : t.proof l = none := by
  rw [SparseMerkleTree.proof, h.leaf_eq l, if_pos]
  by_contra hc
  obtain ⟨hne, heq⟩ := not_or.mp hc
  have hmem := mem_of_leafAt_ne hne
  rw [not_not.mp heq] at hmem
  exact hl hmem

/-- After every history a proof is made for a record and verifies exactly if the record is
stored, its content hash is the record hash of a record that was inserted into the tree of the
zone, and the latest seal that is found checkpoints the root of the tree. -/
theorem crossZoneProof_iff [Unicode] (hn : NodesNeverEmpty) (events : List Event) (zone : ZoneId)
    (hapart : Apart ↑(inserted (toKeyBytes zone) events))
    (hempty : emptyHash ∉ inserted (toKeyBytes zone) events) (now : F64) (zoneCount : ℕ)
    (recordId : Str) (registry : Option ZoneRegistry) :
    (∃ proof, (Storage.run events).generateCrossZoneProof now zoneCount recordId zone registry =
        some proof ∧ (verifyCrossZoneProof proof).verified = true) ↔
      (∃ rec l, (Storage.run events).records.lookup recordId = some rec ∧
        hash32 rec.contentHash = some l ∧ l ∈ inserted (toKeyBytes zone) events) ∧
      ∃ info, (Storage.run events).findLatestSealForZone now zone = some info ∧
        info.f3SparseRoot = some ((Storage.run events).tree zone).root := by
  have hshows := shows_tree hapart
  have hproof : ∀ l ∈ inserted (toKeyBytes zone) events,
      ∃ proof, ((Storage.run events).tree zone).proof l = some proof ∧ proof.leaf = l ∧
        proof.root = ((Storage.run events).tree zone).root ∧ proof.zone = zone ∧
        verifyProof proof = true := by
    intro l hl
    obtain ⟨proof, hsome, hleaf, hroot, hzone, -, hok⟩ :=
      hshows.proof_spec hn hapart hl fun heq => hempty (heq ▸ hl)
    exact ⟨proof, hsome, hleaf, hroot, hzone, hok⟩
  constructor
  · rintro ⟨proof, hgen, hok⟩
    obtain ⟨rec, hrec, l, hl, merkleProof, hmerkle, info, hinfo, root, hroot, rfl⟩ :=
      Storage.generateCrossZoneProof_eq_some.mp hgen
    have hmem : l ∈ inserted (toKeyBytes zone) events := by
      by_contra hnot
      exact nomatch hmerkle.symm.trans (hshows.proof_eq_none hnot)
    obtain ⟨proof, hsome, -, hproot, -, -⟩ := hproof l hmem
    obtain rfl := Option.some.inj (hmerkle.symm.trans hsome)
    simp only [verifyCrossZoneProof, Bool.and_eq_true, decide_eq_true_iff] at hok
    refine ⟨⟨rec, l, hrec, hl, hmem⟩, info, hinfo, ?_⟩
    rw [hroot, ← hok.1.1.2, hproot]
  · rintro ⟨⟨rec, l, hrec, hl, hmem⟩, info, hinfo, hroot⟩
    obtain ⟨proof, hsome, hleaf, hproot, hzone, hok⟩ := hproof l hmem
    refine ⟨_, Storage.generateCrossZoneProof_eq_some.mpr
      ⟨rec, hrec, l, hl, proof, hsome, info, hinfo, _, hroot, rfl⟩, ?_⟩
    simp [verifyCrossZoneProof, hok, hleaf, hproot, hzone]

end

/-! ### A record without a proof -/

section

attribute [local instance] Record.asciiCase Record.bitsFormat Smt.guardedSha3

/-- A record whose content hash is zero. -/
def plainRecord : ValidationRecord := Record.sampleRecord []

def plainHash : Bytes32 where
  data := [
    0x28, 0xc7, 0xc5, 0xdd, 0xe9, 0x08, 0x6d, 0xac,
    0x2b, 0x45, 0xed, 0x5b, 0x47, 0xd8, 0x91, 0x91,
    0x7d, 0xf9, 0xf7, 0x4d, 0x7c, 0x8d, 0x74, 0xf1,
    0xcb, 0x7f, 0xe3, 0x5d, 0x04, 0xfa, 0xf4, 0xeb]
  size_eq := rfl

def plainRoot : Bytes32 where
  data := [
    0xf5, 0x25, 0xfd, 0x32, 0x2a, 0xd9, 0x93, 0xab,
    0x00, 0x40, 0x64, 0x54, 0x8f, 0x16, 0xd6, 0x33,
    0x25, 0xea, 0x9b, 0x59, 0x78, 0x52, 0x40, 0x5e,
    0x12, 0xae, 0xb8, 0x01, 0xc4, 0xa0, 0x65, 0xa3]
  size_eq := rfl

theorem recordHash_plain : plainRecord.recordHash = plainHash := by decide +kernel

/-- A record with the record hash of the other one for its content. -/
def echoRecord : ValidationRecord :=
  { plainRecord with id := .text "echo", contentHash := plainHash.data }

/-- A seal of zone 0 that checkpoints the root. -/
def sealRecord : ValidationRecord :=
  { plainRecord with
    id := .text "seal"
    metadata := [
      (.text "epoch_end", .number (.int 1)),
      (.text "epoch_merkle_root", .string (.hex plainHash.data)),
      (.text "epoch_number", .number (.int 1)),
      (.text "epoch_op", .string (.text "seal")),
      (.text "epoch_previous_seal", .string (.hex Bytes32.zero.data)),
      (.text "epoch_record_count", .number (.int 1)),
      (.text "epoch_sparse_merkle_root", .string (.hex plainRoot.data)),
      (.text "epoch_start", .number (.int 0)),
      (.text "epoch_zone", .number (.int 0))] }

/-- The record is ingested into zone 0; then the zone is sealed. -/
def sealedHistory : List Event := [
  .ingest 4 plainRecord (zoneFromLegacy 0),
  .write (((AList.insert plainRecord.id plainRecord ∅).insert echoRecord.id echoRecord).insert
    sealRecord.id sealRecord) [(F64.zero, sealRecord.id)] ∅]

theorem inserted_sealedHistory :
    inserted (toKeyBytes (zoneFromLegacy 0)) sealedHistory = {plainHash} := by
  have hok : (4 > 2 ∧ (metaField plainRecord epochOpKey).isNone) ∧
      toKeyBytes (zoneFromLegacy 0) = toKeyBytes (zoneFromLegacy 0) := ⟨by decide +kernel, rfl⟩
  rw [sealedHistory, inserted, List.foldl_cons, List.foldl_cons, List.foldl_nil, Event.inserted,
    if_pos hok, Event.inserted, Finset.empty_union, Finset.union_empty, recordHash_plain]

theorem root_sealedHistory :
    ((Storage.run sealedHistory).tree (zoneFromLegacy 0)).root = plainRoot := by
  decide +kernel

theorem seal_sealedHistory :
    ((Storage.run sealedHistory).findLatestSealForZone F64.zero (zoneFromLegacy 0)).bind
      (fun info => info.f3SparseRoot) = some plainRoot := by
  decide +kernel

/-- The seal that is found checkpoints the root of the tree. -/
theorem checkpoint_sealedHistory :
    ∃ info, (Storage.run sealedHistory).findLatestSealForZone F64.zero (zoneFromLegacy 0) =
        some info ∧
      info.f3SparseRoot =
        some ((Storage.run sealedHistory).tree (zoneFromLegacy 0)).root := by
  rw [root_sealedHistory]
  exact Option.bind_eq_some_iff.mp seal_sealedHistory

theorem apart_sealedHistory :
    Apart ↑(inserted (toKeyBytes (zoneFromLegacy 0)) sealedHistory) := by
  rw [inserted_sealedHistory, Finset.coe_singleton]
  exact Set.injOn_singleton _ _

/-- A record that was inserted into the tree of a zone whose latest seal checkpoints the root of
the tree; no proof is made for it, since its content hash is no leaf. -/
theorem crossZoneProof_missing :
    (Storage.run sealedHistory).records.lookup plainRecord.id = some plainRecord ∧
    plainRecord.recordHash ∈ inserted (toKeyBytes (zoneFromLegacy 0)) sealedHistory ∧
    (∃ info, (Storage.run sealedHistory).findLatestSealForZone F64.zero (zoneFromLegacy 0) =
        some info ∧
      info.f3SparseRoot =
        some ((Storage.run sealedHistory).tree (zoneFromLegacy 0)).root) ∧
    (Storage.run sealedHistory).generateCrossZoneProof F64.zero 1 plainRecord.id
      (zoneFromLegacy 0) none = none := by
  have hrecord : (Storage.run sealedHistory).records.lookup plainRecord.id = some plainRecord := by
    rw [show (Storage.run sealedHistory).records =
      ((AList.insert plainRecord.id plainRecord ∅).insert echoRecord.id echoRecord).insert
        sealRecord.id sealRecord from rfl,
      AList.lookup_insert_ne (by decide +kernel), AList.lookup_insert_ne (by decide +kernel),
      AList.lookup_insert]
  refine ⟨hrecord, ?_, checkpoint_sealedHistory, ?_⟩
  · rw [inserted_sealedHistory, recordHash_plain]
    exact Finset.mem_singleton_self plainHash
  · rw [Option.eq_none_iff_forall_ne_some]
    intro proof hgen
    obtain ⟨rec, hrec, l, hl, merkleProof, hmerkle, -⟩ :=
      Storage.generateCrossZoneProof_eq_some.mp hgen
    obtain rfl := Option.some.inj (hrecord.symm.trans hrec)
    obtain rfl : Bytes32.zero = l := Option.some.inj hl
    have hnot : Bytes32.zero ∉ inserted (toKeyBytes (zoneFromLegacy 0)) sealedHistory := by
      rw [inserted_sealedHistory, Finset.mem_singleton]
      decide +kernel
    exact nomatch hmerkle.symm.trans ((shows_tree apart_sealedHistory).proof_eq_none hnot)

/-- There is a proof for the record that has the record hash for its content. -/
theorem crossZoneProof_iff_echo :
    ∃ proof, (Storage.run sealedHistory).generateCrossZoneProof F64.zero 1 echoRecord.id
        (zoneFromLegacy 0) none = some proof ∧
      (verifyCrossZoneProof proof).verified = true := by
  have hempty : emptyHash ∉ inserted (toKeyBytes (zoneFromLegacy 0)) sealedHistory := by
    rw [inserted_sealedHistory, Finset.mem_singleton]
    decide +kernel
  refine (crossZoneProof_iff nodesNeverEmpty_guarded sealedHistory (zoneFromLegacy 0)
    apart_sealedHistory hempty F64.zero 1 echoRecord.id none).mpr
    ⟨⟨echoRecord, plainHash, ?_, rfl, ?_⟩, checkpoint_sealedHistory⟩
  · rw [show (Storage.run sealedHistory).records =
      ((AList.insert plainRecord.id plainRecord ∅).insert echoRecord.id echoRecord).insert
        sealRecord.id sealRecord from rfl,
      AList.lookup_insert_ne (by decide +kernel), AList.lookup_insert]
  · rw [inserted_sealedHistory]
    exact Finset.mem_singleton_self plainHash

end

end ElaraMesh.ZoneTree
