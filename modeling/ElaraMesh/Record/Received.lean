import ElaraMesh.Record.Reads
import ElaraMesh.Record.Binding
import ElaraMesh.Smt.Hash

/-!
# Records that were sent

What a peer has in its hands after a record was written and read again.  Almost every field
comes back as it was: empty fields come back absent, the zone is normalized, and integers of
the metadata that are not `i64`s come back as floats.  Metadata are signed as JSON text, and
there the last point shows.

## Main results

* `ValidationRecord.reads_readRecord` — the decoder on the bytes of a record.
* `ValidationRecord.signed_iff` — the signed bytes and the hash of a record survive the wire,
  if and only if all integers of its metadata are `i64`s.
* `large_integer_lost` — a record where they do not.
-/

namespace ElaraMesh
namespace Record

open Framing
open Smt (Sha3 sha3_256 Bytes32)

/-! ### Programs of the record decoder -/

namespace Reads

variable {α : Type} {x : Read α} {bytes : List UInt8} {ok : Prop} {a default : α} {n : ℕ}

theorem refuseIf (c : Prop) [Decidable c] (message : String) :
    Reads (refuseIf c message) [] (¬ c) () := by
  by_cases hc : c
  · rw [Record.refuseIf, if_pos hc]
    exact (Reads.wireError message).imp (iff_of_false id (not_not.mpr hc))
  · rw [Record.refuseIf, if_neg hc]
    exact (Reads.pure ()).imp (iff_of_true trivial hc)

theorem ifRemaining (hx : Reads x bytes ok a) (hn : n ≤ bytes.length) :
    Reads (ValidationRecord.ifRemaining n x default) bytes ok a := by
  intro r rest hr
  have hle : n ≤ r.remaining := by
    rw [hr.length_eq, List.length_append]
    omega
  have hrun : ValidationRecord.ifRemaining n x default r = x r := by
    change (if n ≤ r.remaining then x else Pure.pure default) r = x r
    rw [if_pos hle]
  rw [hrun]
  exact hx r rest hr

theorem extension {applies : Prop} [Decidable applies] (happlies : applies)
    (hx : Reads x bytes ok a) (hn : n ≤ bytes.length) :
    Reads (ValidationRecord.extension applies n x default) bytes ok a := by
  rw [ValidationRecord.extension, if_pos happlies]
  exact hx.ifRemaining hn

/-- A part that only some versions have. -/
theorem extension_ite {applies : Prop} [Decidable applies]
    (hx : applies → Reads x bytes ok a) (hn : n ≤ bytes.length) :
    Reads (ValidationRecord.extension applies n x default) (if applies then bytes else [])
      (applies → ok) (if applies then a else default) := by
  by_cases happlies : applies
  · rw [if_pos happlies, if_pos happlies]
    exact (extension happlies (hx happlies) hn).imp ⟨fun h _ => h, fun h => h happlies⟩
  · rw [ValidationRecord.extension, if_neg happlies, if_neg happlies, if_neg happlies]
    exact (Reads.pure default).imp (iff_of_true trivial fun h => absurd h happlies)

end Reads

namespace ValidationRecord

theorem reads_readHeader (version : UInt16) :
    Reads readHeader (encodeHeader version) (wireVersionMin ≤ version ∧ version ≤ wireVersion)
      (version, 0x01) := by
  have hversion := Reads.readU16 version.toNat
  rw [UInt16.ofNat_toNat] at hversion
  refine (((Reads.readBytes magic).andThen (Reads.guard fun _ => hversion.andThen
    (Reads.guard fun _ => (Reads.readByte 0x01).andThen ((Reads.readByte 0x00).map
      fun _ => (version, 0x01))))).imp ?_).of_eq ?_
  · rw [not_not, and_true, not_not, and_iff_right rfl]
  · rw [encodeHeader, List.append_assoc]
    rfl

theorem reads_readId (kind what : String) {id : Str} (hid : id.len ≤ 255) :
    Reads (readId kind what) (encodeU8Prefixed id.bytes)
      (id.isAscii = true ∧ id.len ≤ maxRecordIdLen) id := by
  have hcheck : Reads (validateWireId kind id) [] (id.isAscii = true ∧ id.len ≤ maxRecordIdLen)
      () := by
    refine (Reads.guard fun _ => Reads.refuseIf _ _).imp ?_
    rw [not_not, gt_iff_lt, Nat.not_lt]
  refine ((Reads.readU8Prefixed hid).andThen ((reads_readStr what id).andThen
    (hcheck.map fun _ => id))).of_eq ?_
  rw [List.append_nil, List.append_nil]
  rfl

theorem reads_readParents {parents : List Str} (hparents : parents.length ≤ 65535)
    (hparent : ∀ p ∈ parents, p.len ≤ 255) :
    Reads readParents
      (bigEndian 2 parents.length ++ parents.flatMap fun pid => encodeU8Prefixed pid.bytes)
      (parents.length ≤ maxParents ∧
        ∀ p ∈ parents, p.isAscii = true ∧ p.len ≤ maxRecordIdLen) parents := by
  have hmany := Reads.readMany fun p hp =>
    reads_readId "parent" "UTF-8 in parent ID" (hparent p hp)
  rw [List.map_id'] at hmany
  refine Reads.count hparents (Reads.readU16 _) fun hn => ?_
  rw [hn]
  exact hmany

theorem reads_fromU8 (c : Classification) : Reads (Classification.fromU8 c.toU8) [] True c := by
  cases c <;> exact Reads.pure _

theorem reads_readItcAndZoneRefs {itc : Option (List UInt8)} {itcBytes : List UInt8}
    (hitc : encodeOptionalU16 itc = some itcBytes) {refs : List (List UInt8)}
    (hrefs : refs.length ≤ 65535) (href : ∀ zref ∈ refs, zref.length = 24) :
    Reads readItcAndZoneRefs (itcBytes ++ (bigEndian 2 refs.length ++ refs.flatten))
      (refs.length ≤ maxZoneRefs) (present itc, refs) := by
  have hmany := (Reads.readMany fun zref hzref => Reads.readBytes' (href zref hzref)).imp
    (iff_of_true (fun _ _ => trivial) trivial)
  rw [List.map_id', List.flatMap_id'] at hmany
  refine (reads_readOptionalU16 hitc).andThen ((Reads.count hrefs
    ((Reads.readU16 _).ifRemaining (length_bigEndian 2 _).ge) fun hn => ?_).imp
      (and_iff_left trivial))
  rw [hn]
  exact hmany.map fun refs => (present itc, refs)

theorem reads_readAlgorithms (version : UInt16) (primary secondary : UInt8) :
    Reads (readAlgorithms version) [primary, secondary]
      (primary = algDilithium3 ∧
        (secondary = 0 ∨ some secondary = recordSecondLegAlgorithm version))
      (primary, if secondary = 0 then none else some secondary) := by
  refine Reads.tag (Reads.tag ((Reads.guard fun _ => ?_).imp (and_congr_left' not_not)))
  split
  · next hzero => exact (Reads.pure _).imp (iff_of_true trivial (Or.inl hzero))
  · next hzero =>
    split
    · next hleg => exact (Reads.pure _).imp (iff_of_true trivial (Or.inr hleg))
    · next hleg =>
      have hfalse : ¬ (secondary = 0 ∨ some secondary = recordSecondLegAlgorithm version) :=
        not_or.mpr ⟨hzero, hleg⟩
      split <;> exact (Reads.wireError _).imp (iff_of_false not_false hfalse)

/-- A zone is read from the wire; the length prefix holds the length up to two bytes. -/
theorem fromWireBytes_sized [Unicode] (path rest : List UInt8) :
    ZoneId.fromWireBytes (sized 2 path ++ rest) =
      match Str.fromUtf8 (path.take (path.length % 65536)) with
      | .ok s => some (ZoneId.new s.bytes, 2 + path.length % 65536)
      | .error _ => none := by
  have hle : path.length % 65536 ≤ path.length := Nat.mod_le _ _
  have hlen : ofBigEndian (bigEndian 2 path.length) = path.length % 65536 :=
    ofBigEndian_bigEndian 2 _
  rw [sized, List.append_assoc, ZoneId.fromWireBytes]
  simp only [List.take_left' (length_bigEndian 2 _), List.drop_left' (length_bigEndian 2 _), hlen,
    List.length_append, length_bigEndian]
  rewrite [if_neg (by omega), if_neg (by omega), List.take_append_of_le_length hle]
  rfl

/-- A zone is read if the bytes in front are one, and there is none otherwise. -/
theorem readZone_body [Unicode] (r : WireReader) :
    (do let r ← reader
        match ZoneId.fromWireBytes r.remainingBytes with
        | some (z, consumed) =>
          set (r.advance consumed)
          return some z
        | none => return none : Read (Option ZoneId)) r =
      .ok ((ZoneId.fromWireBytes r.remainingBytes).map Prod.fst,
        (ZoneId.fromWireBytes r.remainingBytes).elim r fun p => r.advance p.2) := by
  change (match ZoneId.fromWireBytes r.remainingBytes with
    | some (z, consumed) => (do set (r.advance consumed); return some z : Read (Option ZoneId))
    | none => return none) r = _
  cases ZoneId.fromWireBytes r.remainingBytes with
  | none => rfl
  | some p => rfl

theorem reads_readZone [Unicode] {zone : Option ZoneId}
    (hzone : ∀ z ∈ zone, ∃ path : Str, z = ⟨path.bytes⟩ ∧ path.len ≤ 65535) :
    Reads readZone (encodeZone zone) True (zone.map fun z => ZoneId.new z.path) := by
  cases zone with
  | none => exact Reads.tag (Reads.pure none)
  | some z =>
    obtain ⟨path, rfl, hpath⟩ := hzone z rfl
    refine Reads.tag ?_
    intro r rest hr
    refine ⟨fun _ => ⟨r.advance (2 + path.len), ?_, hr.advance ?_⟩, fun h => absurd trivial h⟩
    · have hlen : path.bytes.length % 65536 = path.len :=
        Nat.mod_eq_of_lt (Nat.lt_succ_of_le hpath)
      have hwire := fromWireBytes_sized path.bytes rest
      rw [hlen, Str.len, List.take_length, fromUtf8_bytes,
        ← ZoneId.toWireBytes.eq_1 ⟨path.bytes⟩, ← hr.bytes_eq] at hwire
      refine (readZone_body r).trans ?_
      rw [hwire]
      rfl
    · exact length_sized 2 path.bytes

theorem reads_readNetworkId {nid : Str} (hnid : nid.len ≤ 65535) :
    Reads readNetworkId (sized 2 nid.bytes) (nid.len ≤ maxNetworkIdLen ∧ nid.isAscii = true)
      nid := by
  refine (((Reads.readU16Prefixed hnid).andThen (Reads.guard fun _ =>
    (reads_readStr _ nid).andThen (Reads.guard fun _ => Reads.pure nid))).imp ?_).of_eq ?_
  · rw [gt_iff_lt, Nat.not_lt, not_not, and_true]
    rfl
  · rw [List.append_nil, List.append_nil]

/-! ### Records -/

/-- Every field in front of the zone fits its place on the wire, and maps are in the order of
their keys. -/
structure FitsFront (r : ValidationRecord) : Prop where
  id_le : r.id.len ≤ 255
  hash_len : r.contentHash.length = 32
  parents_le : r.parents.length ≤ 65535
  parent_le : ∀ p ∈ r.parents, p.len ≤ 255
  keys : Increasing r.metadata
  sorted : ∀ e ∈ r.metadata, e.2.Sorted
  metadata_ok : ∃ bytes, encodeMetadataBinary r.metadata = .ok bytes
  zk_len : (r.zkProof.getD []).length < 2 ^ 32
  refs_le : r.zoneRefs.length ≤ 65535
  ref_len : ∀ zref ∈ r.zoneRefs, zref.length = 24

/-- Every field fits its place on the wire. -/
structure Fits (r : ValidationRecord) : Prop extends FitsFront r where
  zone_le : ∀ z ∈ r.zone, ∃ path : Str, z = ⟨path.bytes⟩ ∧ path.len ≤ 65535

def secondByte (r : ValidationRecord) : UInt8 := r.sphincsAlgorithm.getD 0

/-- The caps of the decoder in front of the zone. -/
structure AcceptedFront (r : ValidationRecord) : Prop where
  version : wireVersionMin ≤ r.version ∧ r.version ≤ wireVersion
  id : r.id.isAscii = true ∧ r.id.len ≤ maxRecordIdLen
  parents : r.parents.length ≤ maxParents ∧
    ∀ p ∈ r.parents, p.isAscii = true ∧ p.len ≤ maxRecordIdLen
  metadata : r.metadata.length ≤ maxMetadataEntries ∧
    ∀ e ∈ r.metadata, e.2.Accepted (maxMetadataDepth + 1)
  refs : r.zoneRefs.length ≤ maxZoneRefs
  primary : r.sigAlgorithm = algDilithium3
  secondary : r.secondByte = 0 ∨ some r.secondByte = recordSecondLegAlgorithm r.version

/-- The caps and checks of the decoder behind the zone. -/
structure AcceptedBack (r : ValidationRecord) : Prop where
  network : 6 ≤ r.version → r.networkId.len ≤ maxNetworkIdLen ∧ r.networkId.isAscii = true
  signed : r.secondByte ≠ 0 ↔ (present r.sphincsSignature).isSome = true
  key : r.secondByte ≠ 0 → (present r.creatorSphincsPk).isSome = true

/-- The caps and checks of the decoder. -/
def Accepted (r : ValidationRecord) : Prop := r.AcceptedFront ∧ r.AcceptedBack

/-- The record at the other end of the wire. -/
def received [Unicode] (r : ValidationRecord) : ValidationRecord :=
  { r with
    metadata := Value.wiredFields r.metadata
    signature := present r.signature
    sphincsSignature := present r.sphincsSignature
    zkProof := present r.zkProof
    itcStamp := present r.itcStamp
    creatorSphincsPk := present r.creatorSphincsPk
    sphincsAlgorithm := if r.secondByte = 0 then none else some r.secondByte
    zone := r.zone.map fun z => ZoneId.new z.path
    identityHashWire := none
    nonce := if 5 ≤ r.version then r.nonce else 0
    networkId := if 6 ≤ r.version then r.networkId else Str.empty }

variable {r : ValidationRecord} {bytes : List UInt8}

theorem encodeAgility_eq_some (h : r.encodeAgility = some bytes) (hversion : 2 ≤ r.version) :
    ∃ itcStamp creatorSphincsPk, encodeOptionalU16 r.itcStamp = some itcStamp ∧
      encodeOptionalU16 r.creatorSphincsPk = some creatorSphincsPk ∧
      bytes = (itcStamp ++ (bigEndian 2 r.zoneRefs.length ++ r.zoneRefs.flatten)) ++
        (creatorSphincsPk ++ [r.sigAlgorithm, r.secondByte]) := by
  rw [encodeAgility, if_pos hversion] at h
  obtain ⟨itcStamp, hitc, h⟩ := Option.bind_eq_some_iff.mp h
  obtain ⟨creatorSphincsPk, hpk, h⟩ := Option.bind_eq_some_iff.mp h
  obtain rfl := Option.some.inj h
  refine ⟨itcStamp, creatorSphincsPk, hitc, hpk, ?_⟩
  rw [List.append_assoc]
  rfl

theorem encodeNetworkId_eq_some (h : r.encodeNetworkId = some bytes) :
    bytes = (if 6 ≤ r.version then sized 2 r.networkId.bytes else []) ∧
      (6 ≤ r.version → r.networkId.len ≤ 65535) := by
  unfold encodeNetworkId at h
  split at h
  · next h6 =>
    obtain ⟨hlen, rfl⟩ := encodeU16Prefixed_some h
    exact ⟨(if_pos h6).symm, fun _ => hlen⟩
  · next h6 => exact ⟨(if_neg h6).symm ▸ (Option.some.inj h).symm, fun h => absurd h h6⟩

def backBytes (r : ValidationRecord) : List UInt8 :=
  (if 3 ≤ r.version then encodeZone r.zone else []) ++
  ((if 5 ≤ r.version then bigEndian 8 r.nonce.toNat else []) ++
  (if 6 ≤ r.version then sized 2 r.networkId.bytes else []))

theorem toBytes_eq_some (h : r.toBytes = some bytes) :
    ∃ signature sphincsSignature agility, r.creatorPublicKey.length ≤ 65535 ∧
    encodeOptionalU16 r.signature = some signature ∧
    encodeOptionalU16 r.sphincsSignature = some sphincsSignature ∧
    r.encodeAgility = some agility ∧
    (6 ≤ r.version → r.networkId.len ≤ 65535) ∧
    bytes = (encodeHeader r.version ++ (encodeU8Prefixed r.id.bytes ++ (r.contentHash ++
      (sized 2 r.creatorPublicKey ++ (encodeTimestamp r.timestamp ++
      ((bigEndian 2 r.parents.length ++ r.parents.flatMap fun pid => encodeU8Prefixed pid.bytes) ++
      ([r.classification.toU8] ++ (encodeMetadata r.metadata ++ (encodeOptionalU32 r.zkProof ++
      (signature ++ (sphincsSignature ++ agility))))))))))) ++ r.backBytes := by
  obtain ⟨key, hkey, h⟩ := Option.bind_eq_some_iff.mp h
  obtain ⟨signature, hsignature, h⟩ := Option.bind_eq_some_iff.mp h
  obtain ⟨sphincsSignature, hsphincs, h⟩ := Option.bind_eq_some_iff.mp h
  obtain ⟨agility, hagility, h⟩ := Option.bind_eq_some_iff.mp h
  obtain ⟨network, hnetwork, h⟩ := Option.bind_eq_some_iff.mp h
  obtain ⟨hkeylen, rfl⟩ := encodeU16Prefixed_some hkey
  obtain ⟨rfl, hlen⟩ := encodeNetworkId_eq_some hnetwork
  obtain rfl := Option.some.inj h
  refine ⟨signature, sphincsSignature, agility, hkeylen, hsignature, hsphincs, hagility, hlen, ?_⟩
  simp only [List.append_assoc, backBytes]

theorem length_optional_pos {o : Option (List UInt8)}
    (h : encodeOptionalU16 o = some bytes) : 1 ≤ bytes.length := by
  obtain ⟨-, rfl⟩ := encodeOptionalU16_some h
  rw [length_sized]
  omega

theorem length_encodeZone_pos (zone : Option ZoneId) : 1 ≤ (encodeZone zone).length := by
  cases zone with
  | none => exact le_rfl
  | some z => exact Nat.succ_le_of_lt (Nat.succ_pos _)

/-- The conditions in the order in which they are checked. -/
theorem acceptedFront_iff : r.AcceptedFront ↔
    (wireVersionMin ≤ r.version ∧ r.version ≤ wireVersion) ∧
    (r.id.isAscii = true ∧ r.id.len ≤ maxRecordIdLen) ∧
    (r.parents.length ≤ maxParents ∧
      ∀ p ∈ r.parents, p.isAscii = true ∧ p.len ≤ maxRecordIdLen) ∧
    (r.metadata.length ≤ maxMetadataEntries ∧
      ∀ e ∈ r.metadata, e.2.Accepted (maxMetadataDepth + 1)) ∧
    r.zoneRefs.length ≤ maxZoneRefs ∧
    r.sigAlgorithm = algDilithium3 ∧
      (r.secondByte = 0 ∨ some r.secondByte = recordSecondLegAlgorithm r.version) :=
  ⟨fun ⟨h₁, h₂, h₃, h₄, h₅, h₆, h₇⟩ => ⟨h₁, h₂, h₃, h₄, h₅, h₆, h₇⟩,
    fun ⟨h₁, h₂, h₃, h₄, h₅, h₆, h₇⟩ => ⟨h₁, h₂, h₃, h₄, h₅, h₆, h₇⟩⟩

theorem acceptedBack_iff : r.AcceptedBack ↔
    (6 ≤ r.version → r.networkId.len ≤ maxNetworkIdLen ∧ r.networkId.isAscii = true) ∧
    (r.secondByte ≠ 0 ↔ (present r.sphincsSignature).isSome = true) ∧
    (r.secondByte ≠ 0 → (present r.creatorSphincsPk).isSome = true) :=
  ⟨fun ⟨h₁, h₂, h₃⟩ => ⟨h₁, h₂, h₃⟩, fun ⟨h₁, h₂, h₃⟩ => ⟨h₁, h₂, h₃⟩⟩

/-- The rest of the decoder, from the zone on. -/
def readBack [Unicode] (record : ValidationRecord) : Read ValidationRecord := do
  let zone ← extension (3 ≤ record.version) 1 readZone none
  let nonce ← extension (5 ≤ record.version) 8 readU64 0
  let networkId ← extension (6 ≤ record.version) 2 readNetworkId Str.empty
  refuseIf (record.sphincsAlgorithm.isSome ∧ record.sphincsSignature.isNone)
    "sphincs_algorithm declared but no SPHINCS+ signature attached"
  refuseIf (record.sphincsSignature.isSome ∧ record.sphincsAlgorithm.isNone)
    "SPHINCS+ signature attached but sphincs_algorithm byte is 0"
  refuseIf (record.sphincsAlgorithm.isSome ∧ record.creatorSphincsPk.isNone)
    "sphincs_algorithm declared but no SPHINCS+ public key attached"
  return { record with zone, nonce, networkId }

/-- A record is read field by field, in the order of the wire, up to the zone. -/
theorem runs_readRecord [Unicode] (hr : r.FitsFront)
    (h : r.toBytes = some bytes) : ∃ front, bytes = front ++ r.backBytes ∧
      Runs readRecord front r.AcceptedFront (readBack r.received) := by
  obtain ⟨signature, sphincsSignature, agility, hkey, hsignature, hsphincs, hagility, -,
    hbytes⟩ := toBytes_eq_some h
  obtain ⟨metadata, hmetadata⟩ := hr.metadata_ok
  rw [encodeMetadata, hmetadata] at hbytes
  refine ⟨_, hbytes, ?_⟩
  rw [acceptedFront_iff]
  refine (reads_readHeader r.version).step fun hversion => ?_
  have h2 : 2 ≤ r.version := UInt16.le_trans (by decide) hversion.1
  obtain ⟨itcStamp, creatorSphincsPk, hitc, hpk, rfl⟩ := encodeAgility_eq_some hagility h2
  refine (reads_readId _ _ hr.id_le).step fun _ => ?_
  refine (Reads.readBytes' hr.hash_len).andStep ?_
  refine (Reads.readU16Prefixed hkey).andStep ?_
  refine (Reads.readU64 r.timestamp).andStep ?_
  refine (reads_readParents hr.parents_le hr.parent_le).step fun _ => ?_
  refine (Reads.readByte r.classification.toU8).andStep ?_
  refine (reads_fromU8 r.classification).andStep ?_
  refine (reads_decodeMetadataBinary hr.keys hr.sorted hmetadata).step fun _ => ?_
  refine (reads_readOptionalU32 hr.zk_len).andStep ?_
  refine (reads_readOptionalU16 hsignature).andStep ?_
  refine ((reads_readOptionalU16 hsphincs).ifRemaining (length_optional_pos hsphincs)).andStep ?_
  refine ((reads_readItcAndZoneRefs hitc hr.refs_le hr.ref_len).extension h2
    ((length_optional_pos hitc).trans (List.sublist_append_left _ _).length_le)).step fun _ => ?_
  refine ((reads_readOptionalU16 hpk).ifRemaining (length_optional_pos hpk)).andStep ?_
  exact ((reads_readAlgorithms r.version r.sigAlgorithm r.secondByte).ifRemaining le_rfl).runs

theorem reads_secondLeg {α : Type} (second : UInt8) (signature key : Option (List UInt8)) (a : α)
    (m₁ m₂ m₃ : String) :
    let algorithm := if second = 0 then none else some second
    Reads (do
        refuseIf (algorithm.isSome ∧ signature.isNone) m₁
        refuseIf (signature.isSome ∧ algorithm.isNone) m₂
        refuseIf (algorithm.isSome ∧ key.isNone) m₃
        return a) []
      ((second ≠ 0 ↔ signature.isSome = true) ∧ (second ≠ 0 → key.isSome = true)) a := by
  intro algorithm
  refine (Reads.guard fun _ => Reads.guard fun _ => Reads.guard fun _ => Reads.pure a).imp ?_
  by_cases hsecond : second = 0
  · cases signature <;> simp [algorithm, hsecond]
  · cases signature <;> cases key <;> simp [algorithm, hsecond]

theorem reads_readBack [Unicode] (hr : r.Fits) (h3 : 3 ≤ r.version)
    (hnetwork : 6 ≤ r.version → r.networkId.len ≤ 65535) :
    Reads (readBack r.received) r.backBytes r.AcceptedBack r.received := by
  rw [acceptedBack_iff, backBytes, if_pos h3]
  refine ((reads_readZone hr.zone_le).extension h3 (length_encodeZone_pos _)).andThen ?_
  refine ((Reads.extension_ite (fun _ => Reads.readU64 r.nonce) (length_bigEndian 8 _).ge).imp
    (iff_of_true (fun _ => trivial) trivial)).andThen ?_
  exact ((Reads.extension_ite (fun h6 => reads_readNetworkId (hnetwork h6))
    (length_sized 2 _ ▸ Nat.le_add_right 2 _)).bind
      fun _ => reads_secondLeg _ _ _ _ _ _ _).of_eq (List.append_nil _)

/-- **A record is read as it is at the other end of the wire**, if the decoder accepts it. -/
theorem reads_readRecord [Unicode] (hr : r.Fits)
    (h : r.toBytes = some bytes) : Reads readRecord bytes r.Accepted r.received := by
  obtain ⟨front, rfl, hfront⟩ := runs_readRecord hr.toFitsFront h
  obtain ⟨-, -, -, -, -, -, -, hnetwork, -⟩ := toBytes_eq_some h
  exact hfront.trans fun haccepted =>
    reads_readBack hr (UInt16.le_trans (by decide) haccepted.version.1) hnetwork

theorem fromBytes_toBytes [Unicode] (hr : r.Fits) (h : r.toBytes = some bytes) :
    (r.Accepted → fromBytes bytes = .ok r.received) ∧
      (¬ r.Accepted → ∃ e, fromBytes bytes = .error e) := by
  have hahead : (WireReader.new bytes).Ahead (bytes ++ []) :=
    ⟨Nat.zero_le _, (List.append_nil bytes).symm⟩
  obtain ⟨hyes, hno⟩ := reads_readRecord hr h (WireReader.new bytes) [] hahead
  refine ⟨fun hok => ?_, fun hok => ?_⟩
  · obtain ⟨rest, hrun, -⟩ := hyes hok
    rw [fromBytes, hrun]
    rfl
  · obtain ⟨e, hrun⟩ := hno hok
    refine ⟨e, ?_⟩
    rw [fromBytes, hrun]
    rfl

theorem eq_received [Unicode] {r' : ValidationRecord} (hr : r.Fits)
    (h : r.toBytes = some bytes) (hread : fromBytes bytes = .ok r') :
    r.Accepted ∧ r' = r.received := by
  obtain ⟨hyes, hno⟩ := fromBytes_toBytes hr h
  by_cases hok : r.Accepted
  · exact ⟨hok, Except.ok.inj (hread.symm.trans (hyes hok))⟩
  · obtain ⟨e, he⟩ := hno hok
    exact nomatch hread.symm.trans he

/-! ### The signed bytes at the other end -/

section Signed

variable [FloatFormat]

def recordHash [Sha3] (r : ValidationRecord) : Bytes32 := sha3_256 r.signableBytes

def signableTail (r : ValidationRecord) : List UInt8 :=
  r.zkBytes ++ (if 8 ≤ r.version then
    [r.sigAlgorithm, r.sphincsAlgorithm.getD 0] ++
    bigEndian 2 (r.creatorSphincsPk.getD []).length ++ r.creatorSphincsPk.getD []
  else [])

variable [Unicode] (r : ValidationRecord)

omit [FloatFormat] in
theorem signableFront_received : r.received.signableFront = r.signableFront := by
  unfold signableFront received
  by_cases h6 : 6 ≤ r.version <;> by_cases h5 : 5 ≤ r.version <;> simp [h5, h6]

omit [FloatFormat] [Unicode] in
theorem present_getD_nil (o : Option (List UInt8)) : (present o).getD [] = o.getD [] := by
  cases o with
  | none => rfl
  | some d =>
    cases d with
    | nil => rfl
    | cons c d => rfl

omit [FloatFormat] in
theorem zkBytes_received : r.received.zkBytes = r.zkBytes := by
  have hzk : ∀ r : ValidationRecord, r.zkBytes = sized 4 (r.zkProof.getD []) := by
    intro r
    unfold zkBytes
    cases r.zkProof with
    | none => rfl
    | some zk => rfl
  rw [hzk, hzk]
  exact congrArg (sized 4) (present_getD_nil r.zkProof)

omit [FloatFormat] in
theorem signableTail_received : r.received.signableTail = r.signableTail := by
  have halgorithm : r.received.sphincsAlgorithm.getD 0 = r.sphincsAlgorithm.getD 0 := by
    change (if r.secondByte = 0 then none else some r.secondByte).getD 0 = r.secondByte
    split
    · next hzero => exact hzero.symm
    · rfl
  have hkey : r.received.creatorSphincsPk.getD [] = r.creatorSphincsPk.getD [] :=
    present_getD_nil r.creatorSphincsPk
  rw [signableTail, zkBytes_received, halgorithm, hkey]
  rfl

theorem signableBack_received : r.received.signableBack = r.classification.toU8 ::
    (bigEndian 4 (compactMap (Value.wiredFields r.metadata)).length ++
      (compactMap (Value.wiredFields r.metadata) ++ r.signableTail)) := by
  rw [← signableTail_received r]
  rfl

/-- The signed bytes are the same, if and only if the text of the metadata is. -/
theorem signableBytes_received_iff (hff : FloatFormat.Lawful)
    (hfinite : Value.allFiniteFields r.metadata = true)
    (hfinite' : Value.allFiniteFields (Value.wiredFields r.metadata) = true) :
    r.received.signableBytes = r.signableBytes ↔ Value.wiredFields r.metadata = r.metadata := by
  rw [signableBytes_eq, signableBytes_eq, signableFront_received, List.append_cancel_left_eq]
  have hparents : r.received.sortedParents = r.sortedParents := rfl
  rw [hparents, List.append_cancel_left_eq, signableBack_received]
  constructor
  · intro h
    obtain ⟨-, htext⟩ := List.append_inj (List.cons.inj h).2
      ((length_bigEndian 4 _).trans (length_bigEndian 4 _).symm)
    exact (compactMap_append_inj hff hfinite' hfinite htext).1
  · intro h
    rw [h]
    rfl

end Signed

/-- Accepted values have finite floats only. -/
theorem allFinite_of_accepted : ∀ {left : ℕ} {v : Value}, v.Accepted left → v.allFinite = true := by
  intro left
  induction left with
  | zero =>
    intro v h
    rw [Value.Accepted] at h
    exact h.elim
  | succ left ih =>
    intro v h
    cases v with
    | null => rfl
    | bool b => rfl
    | string s => rfl
    | number n =>
      cases n with
      | int i => rfl
      | float bits => exact h
    | array items =>
      rw [Value.Accepted] at h
      exact Value.allFiniteItems_iff.mpr fun v hv => ih (h.2 v hv)
    | object fields =>
      rw [Value.Accepted] at h
      exact Value.allFiniteFields_iff.mpr fun e he => ih (h.2 e he)

/-- **The signed bytes and the hash survive the wire**, if and only if all integers of the
metadata are `i64`s. -/
theorem signed_iff [Unicode] [FloatFormat] [Sha3] (hff : FloatFormat.Lawful)
    {r r' : ValidationRecord} (hr : r.Fits) {bytes : List UInt8} (hbytes : r.toBytes = some bytes)
    (hread : fromBytes bytes = .ok r') :
    (r'.signableBytes = r.signableBytes ∧ r'.recordHash = r.recordHash) ↔
      Value.allI64Fields r.metadata = true := by
  have hfinite' := (wellFormed_of_fromBytes hread).finite
  obtain ⟨haccepted, rfl⟩ := eq_received hr hbytes hread
  have hfinite : Value.allFiniteFields r.metadata = true :=
    Value.allFiniteFields_iff.mpr fun e he => allFinite_of_accepted (haccepted.1.metadata.2 e he)
  have hmetadata : Value.wiredFields r.metadata = r.metadata ↔
      Value.allI64Fields r.metadata = true :=
    Value.wiredFields_eq_self_iff fun e _ => Value.wired_eq_self_iff e.2
  rw [← hmetadata, ← signableBytes_received_iff r hff hfinite hfinite']
  exact and_iff_left_of_imp fun h => congrArg sha3_256 h

end ValidationRecord

/-! ### An integer that does not survive -/

section Samples

attribute [local instance] asciiCase bitsFormat Smt.guardedSha3

def integerRecord (i : ℤ) : ValidationRecord :=
  { sampleRecord [] with metadata := [(Str.text "n", .number (.int i))] }

theorem fits_integerRecord (i : ℤ) : (integerRecord i).Fits where
  id_le := by simp [integerRecord, sampleRecord, Str.len]
  hash_len := rfl
  parents_le := Nat.zero_le _
  parent_le := by simp [integerRecord, sampleRecord]
  keys := List.pairwise_singleton _ _
  sorted := by
    intro e he
    rw [List.mem_singleton.mp he]
    exact Value.Sorted.number _
  metadata_ok := ⟨_, rfl⟩
  zk_len := Nat.two_pow_pos 32
  refs_le := Nat.zero_le _
  ref_len := by simp [integerRecord, sampleRecord]
  zone_le := by simp [integerRecord, sampleRecord]

theorem accepted_integerRecord {i : ℤ} (hi : (Number.int i).wired.allFinite = true) :
    (integerRecord i).Accepted := by
  refine ⟨⟨?_, ⟨rfl, ?_⟩, ⟨Nat.zero_le _, ?_⟩, ⟨?_, fun e he => ?_⟩, Nat.zero_le _, rfl,
    Or.inl rfl⟩, fun _ => ⟨Nat.zero_le _, rfl⟩, ?_, ?_⟩
  · change wireVersionMin ≤ 7 ∧ (7 : UInt16) ≤ wireVersion
    decide
  · simp [integerRecord, sampleRecord, Str.len, ValidationRecord.maxRecordIdLen]
  · simp [integerRecord, sampleRecord]
  · simp [integerRecord, maxMetadataEntries]
  · rw [List.mem_singleton.mp he]
    exact hi
  · simp [integerRecord, sampleRecord, ValidationRecord.secondByte, present]
  · simp [integerRecord, sampleRecord, ValidationRecord.secondByte]

/-- The integer `-1` survives the wire. -/
theorem small_integer_signed :
    ∃ bytes r', (integerRecord (-1)).toBytes = some bytes ∧
      ValidationRecord.fromBytes bytes = .ok r' ∧
      r'.signableBytes = (integerRecord (-1)).signableBytes ∧
      r'.recordHash = (integerRecord (-1)).recordHash := by
  have hfits := fits_integerRecord (-1)
  obtain ⟨bytes, hbytes⟩ := Option.isSome_iff_exists.mp
    (show (integerRecord (-1)).toBytes.isSome = true by decide +kernel)
  have hread := (ValidationRecord.fromBytes_toBytes hfits hbytes).1
    (accepted_integerRecord (by decide +kernel))
  refine ⟨bytes, _, hbytes, hread, ?_⟩
  exact (ValidationRecord.signed_iff bitsFormat_lawful hfits hbytes hread).mpr (by decide +kernel)

/-- The integer `2 ^ 63`, a `u64`, comes back as a float: the record was signed with another
text. -/
theorem large_integer_lost :
    ∃ bytes r', (integerRecord (2 ^ 63)).Fits ∧ (integerRecord (2 ^ 63)).toBytes = some bytes ∧
      ValidationRecord.fromBytes bytes = .ok r' ∧
      r'.signableBytes ≠ (integerRecord (2 ^ 63)).signableBytes ∧
      r'.recordHash ≠ (integerRecord (2 ^ 63)).recordHash := by
  have hfits := fits_integerRecord (2 ^ 63)
  obtain ⟨bytes, hbytes⟩ := Option.isSome_iff_exists.mp
    (show (integerRecord (2 ^ 63)).toBytes.isSome = true by decide +kernel)
  have hread := (ValidationRecord.fromBytes_toBytes hfits hbytes).1
    (accepted_integerRecord (by decide +kernel))
  refine ⟨bytes, _, hfits, hbytes, hread, ?_, ?_⟩
  · decide +kernel
  · decide +kernel

end Samples

end Record
end ElaraMesh
