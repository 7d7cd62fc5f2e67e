import ElaraMesh.Record.Wire
import Mathlib.Data.List.Sort

/-!
# Validation records

The record, the bytes that are signed, and the decoder of the wire format.

## Main results

* `ValidationRecord.wellFormed_of_fromBytes`.
-/

namespace ElaraMesh
namespace Record

open Framing

/-- Who may see the content. -/
inductive Classification where
  | isPublic : Classification
  | isPrivate : Classification
  | restricted : Classification
  | sovereign : Classification
  deriving DecidableEq

namespace Classification

def toU8 : Classification → UInt8
  | isPublic => 0
  | isPrivate => 1
  | restricted => 2
  | sovereign => 3

def fromU8 (val : UInt8) : Read Classification :=
  match val with
  | 0 => return isPublic
  | 1 => return isPrivate
  | 2 => return restricted
  | 3 => return sovereign
  | val => wireError s!"invalid classification: {val}"

theorem toU8_injective : Function.Injective toU8 := by
  intro a b h
  cases a <;> cases b <;> first | rfl | exact absurd h (by decide)

end Classification

/-- The parts of string handling that rest on the Unicode tables. -/
class Unicode where
  /-- Remove white space from both ends. -/
  trim : List UInt8 → List UInt8
  toLowercase : List UInt8 → List UInt8

structure ZoneId where
  path : List UInt8
  deriving DecidableEq

namespace ZoneId

def defaultPath : List UInt8 := [0x64, 0x65, 0x66, 0x61, 0x75, 0x6c, 0x74]

variable [Unicode]

/-- A zone from a path: without white space around it, in lower case, without
trailing slashes. -/
def new (path : List UInt8) : ZoneId :=
  let normalized := (Unicode.toLowercase (Unicode.trim path)).rdropWhile (· = 0x2f)
  if normalized = [] then ⟨defaultPath⟩ else ⟨normalized⟩

/-- A zone and the number of bytes it takes, with a length of two bytes in front. -/
def fromWireBytes (data : List UInt8) : Option (ZoneId × ℕ) :=
  if data.length < 2 then none
  else
    let len := ofBigEndian (data.take 2)
    if data.length < 2 + len then none
    else
      match Str.fromUtf8 ((data.drop 2).take len) with
      | .ok path => some (new path.bytes, 2 + len)
      | .error _ => none

end ZoneId

structure ValidationRecord where
  id : Str
  version : UInt16
  contentHash : List UInt8
  creatorPublicKey : List UInt8
  /-- Seconds since the epoch, by the bits of the double. -/
  timestamp : UInt64
  parents : List Str
  classification : Classification
  /-- In the order of the keys. -/
  metadata : List (Str × Value)
  signature : Option (List UInt8)
  sphincsSignature : Option (List UInt8)
  zkProof : Option (List UInt8)
  itcStamp : Option (List UInt8)
  zoneRefs : List (List UInt8)
  creatorSphincsPk : Option (List UInt8)
  sigAlgorithm : UInt8
  sphincsAlgorithm : Option UInt8
  zone : Option ZoneId
  identityHashWire : Option (List UInt8)
  nonce : UInt64
  networkId : Str

namespace ValidationRecord

/-! ### The signed bytes -/

/-- Domain separation of the signed bytes, from wire version 6 on: the text
`ELARA_RECORD_V1`. -/
def domainTagRecordV1 : List UInt8 :=
  [0x45, 0x4c, 0x41, 0x52, 0x41, 0x5f, 0x52, 0x45, 0x43, 0x4f, 0x52, 0x44, 0x5f, 0x56, 0x31]

def sortedParents (r : ValidationRecord) : List Str := r.parents.insertionSort (· ≤ ·)

/-- The bytes to be signed, built as wire version `constructionVersion` does. -/
def signableBytesUnder [FloatFormat] (r : ValidationRecord) (constructionVersion : UInt16) :
    List UInt8 :=
  (if 6 ≤ constructionVersion then
    domainTagRecordV1 ++ bigEndian 2 r.networkId.len ++ r.networkId.bytes
  else []) ++
  r.id.bytes ++
  bigEndian 2 r.version.toNat ++
  (if 5 ≤ constructionVersion then bigEndian 8 r.nonce.toNat else []) ++
  r.contentHash ++
  r.creatorPublicKey ++
  bigEndian 8 r.timestamp.toNat ++
  bigEndian 2 r.parents.length ++
  (r.sortedParents.flatMap Str.bytes) ++
  [r.classification.toU8] ++
  bigEndian 4 (compactMap r.metadata).length ++
  compactMap r.metadata ++
  (match r.zkProof with
    | some zk => bigEndian 4 zk.length ++ zk
    | none => bigEndian 4 0) ++
  (if 8 ≤ constructionVersion then
    [r.sigAlgorithm, r.sphincsAlgorithm.getD 0] ++
    bigEndian 2 (r.creatorSphincsPk.getD []).length ++ r.creatorSphincsPk.getD []
  else [])

def signableBytes [FloatFormat] (r : ValidationRecord) : List UInt8 :=
  r.signableBytesUnder r.version

/-! ### The decoder -/

def maxParents : ℕ := 256

def maxRecordIdLen : ℕ := 128

/-- Maximum number of zone references. -/
def maxZoneRefs : ℕ := 256

/-- Algorithm byte of the primary signature. -/
def algDilithium3 : UInt8 := 0x01

/-- The algorithm of the second signature at a wire version. -/
def recordSecondLegAlgorithm (version : UInt16) : Option UInt8 :=
  if version ≤ 7 then some 0x02
  else if version ≤ 8 then some 0x04
  else none

/-- A byte as two hexadecimal digits. -/
def hexByte (b : UInt8) : String :=
  String.ofList [Nat.digitChar (b.toNat / 16), Nat.digitChar (b.toNat % 16)]

/-- Ids are ASCII and not too long. -/
def validateWireId (kind : String) (id : Str) : Read Unit := do
  let len := id.len
  refuseIf (¬ id.isAscii) s!"non-ASCII {kind} id rejected at decode ({len} bytes)"
  refuseIf (id.len > maxRecordIdLen)
    s!"{kind} id too long at decode ({len} bytes, max {maxRecordIdLen})"

def readId (kind what : String) : Read Str := do
  let bytes ← readU8Prefixed
  let id ← readStr what bytes
  validateWireId kind id
  return id

def readParents : Read (List Str) := do
  let numParents ← readU16
  refuseIf (numParents.toNat > maxParents)
    s!"too many parents: {numParents} (max {maxParents})"
  readMany (readId "parent" "UTF-8 in parent ID") numParents.toNat

/-- Run a program if bytes are left. -/
def ifRemaining {α : Type} (n : ℕ) (x : Read α) (default : α) : Read α := do
  let r ← reader
  if n ≤ r.remaining then x else return default

/-- A part of the format that only some versions have. -/
def extension {α : Type} (applies : Prop) [Decidable applies] (n : ℕ) (x : Read α) (default : α) :
    Read α :=
  if applies then ifRemaining n x default else return default

/-- The stamp and the references to other zones. -/
def readItcAndZoneRefs : Read (Option (List UInt8) × List (List UInt8)) := do
  let itc ← readOptionalU16
  let numRefs ← ifRemaining 2 readU16 0
  refuseIf (numRefs.toNat > maxZoneRefs) s!"too many zone_refs: {numRefs} (max {maxZoneRefs})"
  let refs ← readMany (readBytes 24) numRefs.toNat
  return (itc, refs)

/-- The algorithm bytes of both signatures. -/
def readAlgorithms (version : UInt16) : Read (UInt8 × Option UInt8) := do
  let primary ← readU8
  let secondary ← readU8
  let primaryHex := hexByte primary
  let secondaryHex := hexByte secondary
  refuseIf (primary ≠ algDilithium3)
    s!"unsupported sig_algorithm byte: 0x{primaryHex} (only 0x01 Dilithium3 is currently accepted)"
  if secondary = 0 then return (primary, none)
  else if some secondary = recordSecondLegAlgorithm version then return (primary, some secondary)
  else
    match recordSecondLegAlgorithm version with
    | some alg =>
      let algHex := hexByte alg
      wireError (s!"unsupported sphincs_algorithm byte: 0x{secondaryHex} at record version {version} " ++
        s!"(only 0x{algHex} or 0x00 are accepted)")
    | none =>
      wireError (s!"unsupported sphincs_algorithm byte: 0x{secondaryHex} at record version {version} " ++
        "(it has no second leg)")

def readZone [Unicode] : Read (Option ZoneId) := do
  let flag ← readU8
  if flag = 1 then
    let r ← reader
    match ZoneId.fromWireBytes r.remainingBytes with
    | some (z, consumed) =>
      set (r.advance consumed)
      return some z
    | none => return none
  else return none

def readNetworkId : Read Str := do
  let bytes ← readU16Prefixed
  let len := bytes.length
  refuseIf (bytes.length > maxNetworkIdLen)
    s!"network_id too long at decode ({len} bytes, max {maxNetworkIdLen})"
  let nid ← readStr "UTF-8 in network_id" bytes
  refuseIf (¬ nid.isAscii) s!"non-ASCII network_id rejected at decode ({len} bytes)"
  return nid

def readRecord [Unicode] : Read ValidationRecord := do
  let (version, _) ← readHeader
  let id ← readId "record" "UTF-8 in record ID"
  let contentHash ← readBytes 32
  let creatorPublicKey ← readU16Prefixed
  let timestamp ← readF64
  let parents ← readParents
  let classVal ← readU8
  let classification ← Classification.fromU8 classVal
  let metadata ← decodeMetadataBinary
  let zkProof ← readOptionalU32
  let signature ← readOptionalU16
  let sphincsSignature ← ifRemaining 1 readOptionalU16 none
  let (itcStamp, zoneRefs) ← extension (2 ≤ version) 1 readItcAndZoneRefs (none, [])
  let creatorSphincsPk ← ifRemaining 1 readOptionalU16 none
  let (sigAlgorithm, sphincsAlgorithm) ← ifRemaining 2 (readAlgorithms version) (algDilithium3, none)
  let zone ← extension (3 ≤ version) 1 readZone none
  let nonce ← extension (5 ≤ version) 8 readU64 0
  let networkId ← extension (6 ≤ version) 2 readNetworkId Str.empty
  refuseIf (sphincsAlgorithm.isSome ∧ sphincsSignature.isNone)
    "sphincs_algorithm declared but no SPHINCS+ signature attached"
  refuseIf (sphincsSignature.isSome ∧ sphincsAlgorithm.isNone)
    "SPHINCS+ signature attached but sphincs_algorithm byte is 0"
  refuseIf (sphincsAlgorithm.isSome ∧ creatorSphincsPk.isNone)
    "sphincs_algorithm declared but no SPHINCS+ public key attached"
  return {
    id, version, contentHash, creatorPublicKey, timestamp, parents, classification, metadata,
    signature, sphincsSignature, zkProof, itcStamp, zoneRefs, creatorSphincsPk, sigAlgorithm,
    sphincsAlgorithm, zone, identityHashWire := none, nonce, networkId }

def fromBytes [Unicode] (data : List UInt8) : Except RecordError ValidationRecord := do
  let (record, _) ← readRecord (WireReader.new data)
  return record

/-! ### What the decoder accepts -/

/-- What the caps of the decoder give every record it returns. -/
structure WellFormed (r : ValidationRecord) : Prop where
  version_ge : wireVersionMin ≤ r.version
  version_le : r.version ≤ wireVersion
  id_le : r.id.len ≤ maxRecordIdLen
  hash_len : r.contentHash.length = 32
  key_len : r.creatorPublicKey.length < 65536
  parents_le : r.parents.length ≤ maxParents
  parent_le : ∀ p ∈ r.parents, p.len ≤ maxRecordIdLen
  finite : Value.allFiniteFields r.metadata = true
  zk_len : ∀ zk ∈ r.zkProof, zk ≠ [] ∧ zk.length < 2 ^ 32
  network_le : r.networkId.len ≤ maxNetworkIdLen
  nonce_old : r.version < 5 → r.nonce = 0
  network_old : r.version < 6 → r.networkId = Str.empty

theorem returns_readId (kind what : String) : Returns (readId kind what) fun id =>
    id.isAscii = true ∧ id.len ≤ maxRecordIdLen := by
  refine (Returns.any _).bind fun bytes _ => (Returns.any _).bind fun id _ => ?_
  refine Returns.bind (P := fun _ => id.isAscii = true ∧ id.len ≤ maxRecordIdLen) ?_
    fun _ hid => Returns.pure hid
  refine Returns.guard fun hascii => Returns.ite (fun _ => Returns.wireError _) fun hle => ?_
  exact Returns.pure ⟨not_not.mp hascii, Nat.not_lt.mp hle⟩

theorem returns_readParents : Returns readParents fun l => l.length ≤ maxParents ∧
    ∀ p ∈ l, p.isAscii = true ∧ p.len ≤ maxRecordIdLen := by
  refine (Returns.any _).bind fun n _ => Returns.guard fun hn => ?_
  exact ((returns_readId _ _).readMany _).mono fun l hl => ⟨hl.1 ▸ Nat.not_lt.mp hn, hl.2⟩

theorem returns_ifRemaining {α : Type} {n : ℕ} {x : Read α} {default : α} {P : α → Prop}
    (hx : Returns x P) (hd : P default) : Returns (ifRemaining n x default) P :=
  (Returns.any _).bind fun _ _ => Returns.ite (fun _ => hx) fun _ => Returns.pure hd

theorem returns_readNetworkId : Returns readNetworkId fun nid =>
    nid.len ≤ maxNetworkIdLen ∧ nid.isAscii = true := by
  refine (Returns.any _).bind fun bytes _ => Returns.guard fun hlen => ?_
  refine (returns_readStr _ _).bind fun nid hnid => Returns.guard fun hascii => Returns.pure ?_
  refine ⟨?_, not_not.mp hascii⟩
  rw [Str.len, hnid]
  exact Nat.not_lt.mp hlen

variable {data : List UInt8} {r : ValidationRecord}

theorem readRecord_of_fromBytes [Unicode]
    (h : fromBytes data = .ok r) : ∃ s, readRecord (WireReader.new data) = .ok (r, s) := by
  unfold fromBytes at h
  cases hr : readRecord (WireReader.new data) with
  | error e =>
    rw [hr] at h
    cases h
  | ok p =>
    rw [hr] at h
    cases h
    exact ⟨p.2, rfl⟩

theorem of_fromBytes [Unicode] {P : ValidationRecord → Prop} (hread : Returns readRecord P)
    (h : fromBytes data = .ok r) : P r := by
  obtain ⟨s, hs⟩ := readRecord_of_fromBytes h
  exact hread _ _ _ hs

/-- **What the decoder accepts is well formed**: field by field, in the order of
the wire. -/
theorem wellFormed_of_fromBytes [Unicode] (h : fromBytes data = .ok r) : r.WellFormed := by
  have hread : Returns readRecord WellFormed := by
    refine returns_readHeader.bind fun header hversion => ?_
    refine (returns_readId _ _).bind fun id hid => ?_
    refine (Returns.readBytes _).bind fun hash hhash => ?_
    refine returns_readU16Prefixed.bind fun key hkey => ?_
    refine (Returns.any _).bind fun timestamp _ => ?_
    refine returns_readParents.bind fun parents hparents => ?_
    refine (Returns.any _).bind fun classVal _ => ?_
    refine (Returns.any _).bind fun classification _ => ?_
    refine returns_decodeMetadataBinary.bind fun metadata hmetadata => ?_
    refine returns_readOptionalU32.bind fun zk hzk => ?_
    refine (Returns.any _).bind fun signature _ => ?_
    refine (Returns.any _).bind fun sphincs _ => ?_
    refine (Returns.any _).bind fun stamps _ => ?_
    refine (Returns.any _).bind fun sphincsPk _ => ?_
    refine (Returns.any _).bind fun algorithms _ => ?_
    refine (Returns.any _).bind fun zone _ => ?_
    refine Returns.bind (P := fun nonce : UInt64 => header.1 < 5 → nonce = 0) ?_
      fun nonce hnonce => ?_
    · refine Returns.ite (fun hge => ?_) fun _ => Returns.pure fun _ => rfl
      exact (Returns.any _).mono fun _ _ hlt => absurd hge (UInt16.not_le.mpr hlt)
    refine Returns.bind (P := fun nid : Str => nid.len ≤ maxNetworkIdLen ∧
      (header.1 < 6 → nid = Str.empty)) ?_ fun nid hnid => ?_
    · refine Returns.ite (fun hge => ?_) fun _ => Returns.pure ⟨Nat.zero_le _, fun _ => rfl⟩
      refine (returns_ifRemaining returns_readNetworkId ⟨Nat.zero_le _, rfl⟩).mono fun _ hnid => ?_
      exact ⟨hnid.1, fun hlt => absurd hge (UInt16.not_le.mpr hlt)⟩
    refine Returns.guard fun _ => Returns.guard fun _ => Returns.guard fun _ => Returns.pure ?_
    exact ⟨hversion.1, hversion.2, hid.2, hhash, hkey, hparents.1, fun p hp => (hparents.2 p hp).2,
      hmetadata, hzk, hnid.1, hnonce, hnid.2⟩
  exact of_fromBytes hread h

end ValidationRecord

end Record
end ElaraMesh
