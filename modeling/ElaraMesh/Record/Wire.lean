import ElaraMesh.Record.Json

/-!
# The wire reader

Records arrive as bytes.  A cursor runs over them, fails at the first thing it does
not accept, and returns values that meet the caps of the format.

## Main results

* `Returns.bind` and the like — how the property of a program follows from those of
  its parts.
* `returns_decodeMetadataBinary` — decoded metadata has finite floats only.
-/

namespace ElaraMesh
namespace Record

open Framing

/-- Errors of the record layer that come from the wire. -/
inductive RecordError where
  | wire (message : String) : RecordError
  deriving DecidableEq

/-- A cursor over bytes. -/
structure WireReader where
  data : List UInt8
  pos : ℕ

/-- A program that moves the cursor and may fail. -/
abbrev Read (α : Type) := StateT WireReader (Except RecordError) α

namespace WireReader

def new (data : List UInt8) : WireReader := ⟨data, 0⟩

/-- The number of bytes ahead. -/
def remaining (r : WireReader) : ℕ := r.data.length - r.pos

def remainingBytes (r : WireReader) : List UInt8 := r.data.drop r.pos

def advance (r : WireReader) (n : ℕ) : WireReader := { r with pos := r.pos + n }

end WireReader

def wireError {α : Type} (message : String) : Read α := throw (.wire message)

/-- Refuse the input if the condition holds. -/
def refuseIf (c : Prop) [Decidable c] (message : String) : Read Unit :=
  if c then wireError message else return ()

def reader : Read WireReader := get

def readBytes (n : ℕ) : Read (List UInt8) := fun r =>
  if r.pos + n ≤ r.data.length then .ok (r.remainingBytes.take n, r.advance n)
  else
    let pos := r.pos
    .error (.wire s!"unexpected EOF at offset {pos}, need {n} bytes")

def readU8 : Read UInt8 := do
  let bytes ← readBytes 1
  return UInt8.ofNat (ofBigEndian bytes)

/-- Two bytes, the higher one first. -/
def readU16 : Read UInt16 := do
  let bytes ← readBytes 2
  return UInt16.ofNat (ofBigEndian bytes)

def readU32 : Read UInt32 := do
  let bytes ← readBytes 4
  return UInt32.ofNat (ofBigEndian bytes)

def readU64 : Read UInt64 := do
  let bytes ← readBytes 8
  return UInt64.ofNat (ofBigEndian bytes)

def readF64 : Read UInt64 := readU64

/-- A field with a length of one byte. -/
def readU8Prefixed : Read (List UInt8) := do
  let len ← readU8
  readBytes len.toNat

/-- A field with a length of two bytes. -/
def readU16Prefixed : Read (List UInt8) := do
  let len ← readU16
  readBytes len.toNat

/-- A field that is absent if its length, of two bytes, is zero. -/
def readOptionalU16 : Read (Option (List UInt8)) := do
  let len ← readU16
  if len = 0 then return none
  else
    let data ← readBytes len.toNat
    return some data

/-- A field that is absent if its length, of four bytes, is zero. -/
def readOptionalU32 : Read (Option (List UInt8)) := do
  let len ← readU32
  if len = 0 then return none
  else
    let data ← readBytes len.toNat
    return some data

/-- Run a program `n` times. -/
def readMany {α : Type} (item : Read α) : ℕ → Read (List α)
  | 0 => return []
  | n + 1 => do
    let a ← item
    let rest ← readMany item n
    return a :: rest

/-! ### The header -/

/-- The first four bytes of a record. -/
def magic : List UInt8 := [0x45, 0x4c, 0x52, 0x41]

def wireVersion : UInt16 := 8

def wireVersionMin : UInt16 := 4

def maxNetworkIdLen : ℕ := 64

def maxMetadataEntries : ℕ := 256

/-- Maximum nesting depth of metadata values. -/
def maxMetadataDepth : ℕ := 8

/-- The header: version and record type. -/
def readHeader : Read (UInt16 × UInt8) := do
  let found ← readBytes 4
  refuseIf (found ≠ magic) s!"invalid magic: {found}"
  let version ← readU16
  refuseIf (¬ (wireVersionMin ≤ version ∧ version ≤ wireVersion))
    s!"unsupported wire version: {version} (supported: {wireVersionMin}-{wireVersion})"
  let recType ← readU8
  let _reserved ← readU8
  return (version, recType)

/-! ### Metadata -/

/-- Bytes as a string, with the error in words. -/
def readStr (what : String) (bytes : List UInt8) : Read Str :=
  match Str.fromUtf8 bytes with
  | .ok s => return s
  | .error e =>
    let e := e.message
    wireError s!"invalid {what}: {e}"

/-- Eight bytes as a signed number. -/
def toI64 (n : ℕ) : ℤ := if n < 2 ^ 63 then n else n - 2 ^ 64

/-- A float that is not finite, in words. -/
def nonFiniteText (bits : UInt64) : String :=
  if bits &&& 0xfffffffffffff ≠ 0 then "NaN"
  else if bits >>> 63 = 0 then "inf"
  else "-inf"

/-- The entries of a map, the later one of two with the same key. -/
def readEntries (keyName : String) (value : Read Value) :
    ℕ → List (Str × Value) → Read (List (Str × Value))
  | 0, map => return map
  | n + 1, map => do
    let keyBytes ← readU8Prefixed
    let key ← readStr keyName keyBytes
    let v ← value
    readEntries keyName value n (mapInsert key v map)

/-- A metadata value, with `left` more levels allowed, this one included. -/
def decodeJsonValue : (left : ℕ) → Read Value
  | 0 =>
    let depth := maxMetadataDepth + 1
    wireError s!"metadata nesting depth {depth} exceeds limit {maxMetadataDepth}"
  | left + 1 => do
    let tag ← readU8
    match tag with
    | 0 => return .null
    | 1 =>
      let b ← readU8
      return .bool (b ≠ 0)
    | 2 =>
      let bytes ← readBytes 8
      return .number (.int (toI64 (ofBigEndian bytes)))
    | 3 =>
      let bits ← readF64
      let f := nonFiniteText bits
      refuseIf (¬ isFinite bits) s!"metadata float is non-finite (NaN/Inf): {f}"
      return .number (.float bits)
    | 4 =>
      let bytes ← readU16Prefixed
      let s ← readStr "metadata string" bytes
      return .string s
    | 5 =>
      let count ← readU16
      refuseIf (count.toNat > maxMetadataEntries)
        s!"metadata array too large: {count} (max {maxMetadataEntries})"
      let items ← readMany (decodeJsonValue left) count.toNat
      return .array items
    | 6 =>
      let count ← readU16
      refuseIf (count.toNat > maxMetadataEntries)
        s!"metadata object too large: {count} (max {maxMetadataEntries})"
      let fields ← readEntries "metadata obj key" (decodeJsonValue left) count.toNat []
      return .object fields
    | tag => wireError s!"unknown metadata type tag: {tag}"

def decodeMetadataBinary : Read (List (Str × Value)) := do
  let count ← readU16
  refuseIf (count.toNat > maxMetadataEntries)
    s!"too many metadata entries: {count} (max {maxMetadataEntries})"
  readEntries "metadata key" (decodeJsonValue (maxMetadataDepth + 1)) count.toNat []

/-! ### What a program returns -/

/-- Every value the program returns has the property. -/
def Returns {α : Type} (x : Read α) (P : α → Prop) : Prop :=
  ∀ r a r', x r = .ok (a, r') → P a

namespace Returns

variable {α β : Type} {x : Read α} {f : α → Read β} {P : α → Prop} {Q : β → Prop}

theorem bind (hx : Returns x P) (hf : ∀ a, P a → Returns (f a) Q) : Returns (x >>= f) Q := by
  intro r b r' h
  change (x r >>= fun p => f p.1 p.2) = .ok (b, r') at h
  cases hxr : x r with
  | error e =>
    rw [hxr] at h
    cases h
  | ok p =>
    rw [hxr] at h
    exact hf p.1 (hx r p.1 p.2 hxr) p.2 b r' h

theorem pure {a : α} (h : P a) : Returns (Pure.pure a) P := by
  intro r b r' heq
  cases heq
  exact h

theorem wireError (message : String) : Returns (wireError message : Read α) P := by
  intro r a r' h
  cases h

theorem any (x : Read α) : Returns x fun _ => True := fun _ _ _ _ => trivial

theorem ite {c : Prop} [Decidable c] {y : Read α} (hx : c → Returns x P) (hy : ¬ c → Returns y P) :
    Returns (if c then x else y) P := by
  split
  · next h => exact hx h
  · next h => exact hy h

/-- A check, and the rest of the program for those that pass it. -/
theorem guard {c : Prop} [Decidable c] {message : String} {y : Unit → Read α}
    (hy : ¬ c → Returns (y ()) P) : Returns (refuseIf c message >>= y) P := by
  refine bind (P := fun _ : Unit => ¬ c) (ite (fun _ => ?_) fun h => ?_) fun _ h => hy h
  · exact wireError message
  · exact pure h

theorem mono {P' : α → Prop} (hx : Returns x P) (h : ∀ a, P a → P' a) : Returns x P' :=
  fun r a r' heq => h a (hx r a r' heq)

theorem readMany (hx : Returns x P) : ∀ n,
    Returns (Record.readMany x n) fun l => l.length = n ∧ ∀ a ∈ l, P a := by
  intro n
  induction n with
  | zero => exact pure ⟨rfl, by simp⟩
  | succ n ih =>
    refine hx.bind fun a ha => ih.bind fun rest hrest => pure ⟨?_, ?_⟩
    · rw [List.length_cons, hrest.1]
    · exact List.forall_mem_cons.mpr ⟨ha, hrest.2⟩

theorem readBytes (n : ℕ) : Returns (Record.readBytes n) fun l => l.length = n := by
  intro r l r' h
  unfold Record.readBytes at h
  split at h
  · next hle =>
    cases h
    rw [List.length_take, WireReader.remainingBytes, List.length_drop]
    omega
  · cases h

end Returns

/-! ### What the readers return -/

theorem returns_readU16Prefixed : Returns readU16Prefixed fun l => l.length < 65536 :=
  (Returns.any _).bind fun len _ => (Returns.readBytes _).mono fun _ hl => hl ▸ len.toNat_lt

theorem returns_readStr (what : String) (bytes : List UInt8) :
    Returns (readStr what bytes) fun s => s.bytes = bytes := by
  unfold readStr
  cases hs : Str.fromUtf8 bytes with
  | ok s => exact Returns.pure (Str.bytes_fromUtf8 hs)
  | error e => exact Returns.wireError _

theorem returns_readOptionalU32 :
    Returns readOptionalU32 fun o => ∀ l ∈ o, l ≠ [] ∧ l.length < 2 ^ 32 := by
  refine (Returns.any _).bind fun len _ => Returns.ite (fun _ => Returns.pure (by simp))
    fun hne => ?_
  refine (Returns.readBytes _).bind fun l hl => Returns.pure ?_
  intro l' hl'
  rw [← Option.some.inj (Option.mem_def.mp hl')]
  refine ⟨?_, hl ▸ len.toNat_lt⟩
  rintro rfl
  apply hne
  apply UInt32.toNat_inj.mp
  exact hl.symm

theorem returns_readHeader :
    Returns readHeader fun h => wireVersionMin ≤ h.1 ∧ h.1 ≤ wireVersion := by
  refine (Returns.any _).bind fun _ _ => Returns.guard fun _ => ?_
  refine (Returns.any _).bind fun version _ => Returns.guard fun hversion => ?_
  refine (Returns.any _).bind fun _ _ => (Returns.any _).bind fun _ _ => Returns.pure ?_
  exact not_not.mp hversion

theorem returns_readEntries {keyName : String} {value : Read Value} {P : Value → Prop}
    (hvalue : Returns value P) : ∀ (n : ℕ) {map : List (Str × Value)}, (∀ e ∈ map, P e.2) →
    Returns (readEntries keyName value n map) fun m => ∀ e ∈ m, P e.2 := by
  intro n
  induction n with
  | zero => intro map hmap; exact Returns.pure hmap
  | succ n ih =>
    intro map hmap
    refine (Returns.any _).bind fun _ _ => (Returns.any _).bind fun key _ =>
      hvalue.bind fun v hv => ?_
    apply ih
    intro e he
    rcases mem_mapInsert he with rfl | he
    · exact hv
    · exact hmap e he

/-- **Decoded values have finite floats only**, by induction on the levels left. -/
theorem returns_decodeJsonValue : ∀ left,
    Returns (decodeJsonValue left) fun v => v.allFinite = true := by
  intro left
  induction left with
  | zero => exact Returns.wireError _
  | succ left ih =>
    unfold decodeJsonValue
    refine (Returns.any _).bind fun tag _ => ?_
    split
    · exact Returns.pure rfl
    · exact (Returns.any _).bind fun b _ => Returns.pure rfl
    · exact (Returns.any _).bind fun bytes _ => Returns.pure rfl
    · refine (Returns.any _).bind fun bits _ => Returns.guard fun hfinite => Returns.pure ?_
      exact not_not.mp hfinite
    · exact (Returns.any _).bind fun bytes _ => (Returns.any _).bind fun s _ => Returns.pure rfl
    · refine (Returns.any _).bind fun count _ => Returns.guard fun _ => ?_
      refine (ih.readMany _).bind fun items hitems => Returns.pure ?_
      exact Value.allFiniteItems_iff.mpr hitems.2
    · refine (Returns.any _).bind fun count _ => Returns.guard fun _ => ?_
      refine (returns_readEntries ih _ (by simp)).bind fun fields hfields => Returns.pure ?_
      exact Value.allFiniteFields_iff.mpr hfields
    · exact Returns.wireError _

theorem returns_decodeMetadataBinary :
    Returns decodeMetadataBinary fun m => Value.allFiniteFields m = true := by
  refine (Returns.any _).bind fun count _ => Returns.guard fun _ => ?_
  exact (returns_readEntries (returns_decodeJsonValue _) _ (by simp)).mono fun m hm =>
    Value.allFiniteFields_iff.mpr hm

end Record
end ElaraMesh
