import ElaraMesh.Record.Metadata
import ElaraMesh.Record.Record

/-!
# The wire encoder

A record is written field by field, each with its length in front.  The encoder of the metadata
refuses what does not fit its length prefixes, and the record is then written with empty
metadata; the encoder of a field with a length of two bytes panics, which is `none` here.

On the wire an integer is an `i64`; larger ones are written as floats.

## Main results

* `encodeItems_ok`, `encodeFields_ok` — the parts of a list or a map, one after the other.
* `Value.wired_eq_self_iff` — nothing is lost, if and only if all integers are `i64`s.
-/

namespace ElaraMesh
namespace Record

open Framing

/-! ### Primitive fields -/

def encodeHeader (version : UInt16) : List UInt8 :=
  magic ++ bigEndian 2 version.toNat ++ [0x01, 0x00]

def encodeU8Prefixed (data : List UInt8) : List UInt8 := sized 1 data

def encodeU16Prefixed (data : List UInt8) : Option (List UInt8) :=
  if data.length ≤ 65535 then some (sized 2 data) else none

def encodeU32Prefixed (data : List UInt8) : List UInt8 := sized 4 data

def encodeTimestamp (ts : UInt64) : List UInt8 := bigEndian 8 ts.toNat

def encodeOptionalU16 : Option (List UInt8) → Option (List UInt8)
  | some d => encodeU16Prefixed d
  | none => some (bigEndian 2 0)

def encodeOptionalU32 : Option (List UInt8) → List UInt8
  | some d => encodeU32Prefixed d
  | none => bigEndian 4 0

/-- The wire form of a zone; the length is cut to two bytes. -/
def ZoneId.toWireBytes (z : ZoneId) : List UInt8 := sized 2 z.path

/-! ### Metadata -/

/-- Refuse what does not fit a length prefix. -/
def overflowIf (c : Prop) [Decidable c] (message : String) : Except RecordError Unit :=
  if c then .error (.wire message) else .ok ()

def encodeMetadataKey (key : Str) : Except RecordError (List UInt8) := do
  let len := key.len
  overflowIf (len > 255) s!"metadata key length {len} overflows u8 length prefix (max 255)"
  return encodeU8Prefixed key.bytes

def encodeNumber (n : Number) : List UInt8 :=
  match (Value.number n).asI64, (Value.number n).asF64 with
  | some i, _ => 2 :: bigEndian 8 (i % 2 ^ 64 : ℤ).toNat
  | none, some f => 3 :: bigEndian 8 f.bits.toNat
  | none, none => [0]

mutual

def encodeJsonValue : Value → Except RecordError (List UInt8)
  | .null => .ok [0]
  | .bool b => .ok [1, if b then 1 else 0]
  | .number n => .ok (encodeNumber n)
  | .string s => do
    let len := s.len
    overflowIf (len > 65535)
      s!"metadata string length {len} overflows u16 length prefix (max 65535)"
    return 4 :: sized 2 s.bytes
  | .array items => do
    let count := items.length
    overflowIf (count > 65535)
      s!"metadata array count {count} overflows u16 length prefix (max 65535)"
    let body ← encodeItems items
    return 5 :: (bigEndian 2 count ++ body)
  | .object fields => do
    let count := fields.length
    overflowIf (count > 65535)
      s!"metadata object count {count} overflows u16 length prefix (max 65535)"
    let body ← encodeFields fields
    return 6 :: (bigEndian 2 count ++ body)

def encodeItems : List Value → Except RecordError (List UInt8)
  | [] => .ok []
  | v :: items => do
    let first ← encodeJsonValue v
    let rest ← encodeItems items
    return first ++ rest

def encodeFields : List (Str × Value) → Except RecordError (List UInt8)
  | [] => .ok []
  | (k, v) :: fields => do
    let key ← encodeMetadataKey k
    let value ← encodeJsonValue v
    let rest ← encodeFields fields
    return key ++ value ++ rest

end

def encodeMetadataBinary (metadata : List (Str × Value)) : Except RecordError (List UInt8) := do
  let count := metadata.length
  overflowIf (count > 65535)
    s!"metadata entry count {count} overflows u16 length prefix (max 65535)"
  let body ← encodeFields metadata
  return bigEndian 2 count ++ body

/-! ### The parts of lists and maps -/

def valueBytes (v : Value) : List UInt8 := (encodeJsonValue v).toOption.getD []

theorem valueBytes_of_ok {v : Value} {bytes : List UInt8} (h : encodeJsonValue v = .ok bytes) :
    valueBytes v = bytes := by
  rw [valueBytes, h]
  rfl

theorem encode_bind_ok {α β : Type} {x : Except RecordError α} {f : α → Except RecordError β}
    {b : β} (h : (x >>= f) = .ok b) : ∃ a, x = .ok a ∧ f a = .ok b := by
  cases x with
  | error e => cases h
  | ok a => exact ⟨a, rfl, h⟩

theorem overflowIf_ok {c : Prop} [Decidable c] {message : String} {u : Unit}
    (h : overflowIf c message = .ok u) : ¬ c := by
  intro hc
  rw [overflowIf, if_pos hc] at h
  cases h

theorem encodeMetadataKey_ok {key : Str} {bytes : List UInt8}
    (h : encodeMetadataKey key = .ok bytes) : key.len ≤ 255 ∧ bytes = sized 1 key.bytes := by
  obtain ⟨_, hlen, h⟩ := encode_bind_ok h
  exact ⟨Nat.not_lt.mp (overflowIf_ok hlen), (Except.ok.inj h).symm⟩

theorem encodeItems_ok {items : List Value} {body : List UInt8} (h : encodeItems items = .ok body) :
    (∀ v ∈ items, encodeJsonValue v = .ok (valueBytes v)) ∧ body = items.flatMap valueBytes := by
  induction items generalizing body with
  | nil => exact ⟨by simp, (Except.ok.inj h).symm⟩
  | cons v items ih =>
    rw [encodeItems] at h
    obtain ⟨first, hfirst, h⟩ := encode_bind_ok h
    obtain ⟨rest, hrest, h⟩ := encode_bind_ok h
    obtain ⟨hitems, rfl⟩ := ih hrest
    obtain rfl := valueBytes_of_ok hfirst
    exact ⟨List.forall_mem_cons.mpr ⟨hfirst, hitems⟩, (Except.ok.inj h).symm⟩

def entryBytes (e : Str × Value) : List UInt8 := sized 1 e.1.bytes ++ valueBytes e.2

theorem encodeFields_ok {fields : List (Str × Value)} {body : List UInt8}
    (h : encodeFields fields = .ok body) :
    (∀ e ∈ fields, e.1.len ≤ 255 ∧ encodeJsonValue e.2 = .ok (valueBytes e.2)) ∧
      body = fields.flatMap entryBytes := by
  induction fields generalizing body with
  | nil => exact ⟨by simp, (Except.ok.inj h).symm⟩
  | cons e fields ih =>
    obtain ⟨k, v⟩ := e
    rw [encodeFields] at h
    obtain ⟨key, hkey, h⟩ := encode_bind_ok h
    obtain ⟨value, hvalue, h⟩ := encode_bind_ok h
    obtain ⟨rest, hrest, h⟩ := encode_bind_ok h
    obtain ⟨hfields, rfl⟩ := ih hrest
    obtain ⟨hlen, rfl⟩ := encodeMetadataKey_ok hkey
    obtain rfl := valueBytes_of_ok hvalue
    exact ⟨List.forall_mem_cons.mpr ⟨⟨hlen, hvalue⟩, hfields⟩, (Except.ok.inj h).symm⟩

/-! ### What is left on the wire -/

/-- A number on the wire: an `i64`, else a float. -/
def Number.wired (n : Number) : Value :=
  match (Value.number n).asI64, (Value.number n).asF64 with
  | some i, _ => .number (.int i)
  | none, some f => .number (.float f.bits)
  | none, none => .null

mutual

def Value.wired : Value → Value
  | .number n => n.wired
  | .array items => .array (wiredItems items)
  | .object fields => .object (wiredFields fields)
  | v => v

def Value.wiredItems : List Value → List Value
  | [] => []
  | v :: items => v.wired :: wiredItems items

def Value.wiredFields : List (Str × Value) → List (Str × Value)
  | [] => []
  | (k, v) :: fields => (k, v.wired) :: wiredFields fields

end

mutual

def Value.allI64 : Value → Bool
  | .number (.int i) => -2 ^ 63 ≤ i ∧ i < 2 ^ 63
  | .array items => allI64Items items
  | .object fields => allI64Fields fields
  | _ => true

def Value.allI64Items : List Value → Bool
  | [] => true
  | v :: items => v.allI64 && allI64Items items

def Value.allI64Fields : List (Str × Value) → Bool
  | [] => true
  | (_, v) :: fields => v.allI64 && allI64Fields fields

end

namespace Value

theorem wiredItems_eq (items : List Value) : wiredItems items = items.map wired := by
  induction items with
  | nil => rfl
  | cons v items ih => rw [wiredItems, ih, List.map_cons]

theorem wiredFields_eq (fields : List (Str × Value)) :
    wiredFields fields = fields.map fun e => (e.1, e.2.wired) := by
  induction fields with
  | nil => rfl
  | cons e fields ih =>
    obtain ⟨k, v⟩ := e
    rw [wiredFields, ih, List.map_cons]

theorem number_wired_eq_self_iff (n : Number) : n.wired = .number n ↔
    (Value.number n).allI64 = true := by
  cases n with
  | float bits => simp [Number.wired, asI64, asF64, allI64]
  | int i =>
    by_cases hi : -2 ^ 63 ≤ i ∧ i < 2 ^ 63
    · simp only [Number.wired, asI64, if_pos hi, allI64, decide_eq_true hi]
    · simp only [Number.wired, asI64, if_neg hi, asF64, allI64, decide_eq_false hi]
      simp

theorem wiredItems_eq_self_iff {items : List Value}
    (ih : ∀ v ∈ items, v.wired = v ↔ v.allI64 = true) :
    wiredItems items = items ↔ allI64Items items = true := by
  induction items with
  | nil => simp [wiredItems, allI64Items]
  | cons v items htail =>
    obtain ⟨hv, hitems⟩ := List.forall_mem_cons.mp ih
    rw [wiredItems, allI64Items, List.cons.injEq, Bool.and_eq_true, hv, htail hitems]

theorem wiredFields_eq_self_iff {fields : List (Str × Value)}
    (ih : ∀ e ∈ fields, e.2.wired = e.2 ↔ e.2.allI64 = true) :
    wiredFields fields = fields ↔ allI64Fields fields = true := by
  induction fields with
  | nil => simp [wiredFields, allI64Fields]
  | cons e fields htail =>
    obtain ⟨k, v⟩ := e
    obtain ⟨hv, hfields⟩ := List.forall_mem_cons.mp ih
    rw [wiredFields, allI64Fields, List.cons.injEq, Prod.mk.injEq, Bool.and_eq_true, hv,
      htail hfields, and_iff_right rfl]

/-- **Nothing is lost on the wire**, if and only if all integers are `i64`s. -/
theorem wired_eq_self_iff (v : Value) : v.wired = v ↔ v.allI64 = true := by
  induction v using Value.ind with
  | null => simp [wired, allI64]
  | bool b => simp [wired, allI64]
  | number n => rw [wired]; exact number_wired_eq_self_iff n
  | string s => simp [wired, allI64]
  | array items ih => rw [wired, allI64, array.injEq, wiredItems_eq_self_iff ih]
  | object fields ih => rw [wired, allI64, object.injEq, wiredFields_eq_self_iff ih]

end Value

/-! ### Records -/

namespace ValidationRecord

/-- From version 2 on: stamp, references to other zones, key of the second signature, algorithm
bytes. -/
def encodeAgility (r : ValidationRecord) : Option (List UInt8) :=
  if 2 ≤ r.version then do
    let itcStamp ← encodeOptionalU16 r.itcStamp
    let creatorSphincsPk ← encodeOptionalU16 r.creatorSphincsPk
    return itcStamp ++ (bigEndian 2 r.zoneRefs.length ++ r.zoneRefs.flatten) ++
      creatorSphincsPk ++ [r.sigAlgorithm, r.sphincsAlgorithm.getD 0]
  else some []

def encodeNetworkId (r : ValidationRecord) : Option (List UInt8) :=
  if 6 ≤ r.version then encodeU16Prefixed r.networkId.bytes else some []

def encodeZone : Option ZoneId → List UInt8
  | some zone => 1 :: zone.toWireBytes
  | none => [0]

/-- The metadata, empty if they do not fit. -/
def encodeMetadata (metadata : List (Str × Value)) : List UInt8 :=
  match encodeMetadataBinary metadata with
  | .ok bytes => bytes
  | .error _ => bigEndian 2 0

/-- The wire form of a record, none if a field is too long for its length prefix. -/
def toBytes (r : ValidationRecord) : Option (List UInt8) := do
  let creatorPublicKey ← encodeU16Prefixed r.creatorPublicKey
  let signature ← encodeOptionalU16 r.signature
  let sphincsSignature ← encodeOptionalU16 r.sphincsSignature
  let agility ← r.encodeAgility
  let zone := if 3 ≤ r.version then encodeZone r.zone else []
  let nonce := if 5 ≤ r.version then bigEndian 8 r.nonce.toNat else []
  let networkId ← r.encodeNetworkId
  return encodeHeader r.version ++ encodeU8Prefixed r.id.bytes ++ r.contentHash ++
    creatorPublicKey ++ encodeTimestamp r.timestamp ++
    (bigEndian 2 r.parents.length ++ r.parents.flatMap fun pid => encodeU8Prefixed pid.bytes) ++
    [r.classification.toU8] ++ encodeMetadata r.metadata ++ encodeOptionalU32 r.zkProof ++
    signature ++ sphincsSignature ++ agility ++ zone ++ nonce ++ networkId

end ValidationRecord

end Record
end ElaraMesh
