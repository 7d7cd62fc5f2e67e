import ElaraMesh.Ledger.Records
import ElaraMesh.Lib.Runs
import ElaraMesh.Lib.Table
import ElaraMesh.Record.Metadata

/-!
# Revoked keys

A record may introduce a new key for its creator, or revoke a key for good.  The registry of the
rotations and revocations is built in two ways: record by record, where a revocation counts only if
its record was created by the key that it revokes, and from all records at once in the order of
their timestamps, where that is not asked.

## Main results

* `isRevoked_foldl_processRecord` — a registry that is built record by record.
* `isRevoked_rebuild` — one that is built from all records.
* `onlyOwnersRevoke_iff` — when the second one has no other keys.
-/

namespace ElaraMesh.Network

open Record (Str Value ValidationRecord hexDecode sha3Hex)
open Ledger (creatorIdentityHash Earlier)
open Smt (Sha3 sha3_256)

/-! ### What a record says -/

def keyRotationKey : Str := Str.text "key_rotation"

def revocationOpKey : Str := Str.text "key_revocation"

def sphincsRotationKey : Str := Str.text "sphincs_key_rotation"

/-- A flag of the metadata, not set if it is missing or no boolean. -/
def metaFlag (record : ValidationRecord) (key : Str) : Bool :=
  ((record.metadata.lookup key).bind Value.asBool).getD false

/-- Bytes in hexadecimal digits. -/
def metaHex (record : ValidationRecord) (key : Str) : Option (List UInt8) :=
  ((record.metadata.lookup key).bind Value.asStr).bind fun s => hexDecode s.bytes

def metaReason (record : ValidationRecord) (key : Str) : Str :=
  ((record.metadata.lookup key).bind Value.asStr).getD (Str.text "unspecified")

/-- A new key of an identity; the same for both kinds of keys. -/
structure KeyRotation where
  newPublicKey : List UInt8
  rotatedAt : UInt64
  reason : Str
  recordId : Str
  deriving DecidableEq

structure RevocationEntry where
  revokedKeyHash : Str
  revokedPublicKey : List UInt8
  revokedAt : UInt64
  reason : Str
  recordId : Str
  identityHash : Str
  deriving DecidableEq

/-- The rotation a record with the given flag carries under a key of its metadata. -/
def extractRotation (flag field : Str) (record : ValidationRecord) : Option KeyRotation :=
  if metaFlag record flag then
    (metaHex record field).map fun newPublicKey =>
      ⟨newPublicKey, record.timestamp, metaReason record (Str.text "rotation_reason"), record.id⟩
  else none

def extractKeyRotation : ValidationRecord → Option KeyRotation :=
  extractRotation keyRotationKey (Str.text "new_public_key")

def extractSphincsRotation : ValidationRecord → Option KeyRotation :=
  extractRotation sphincsRotationKey (Str.text "new_sphincs_public_key")

def revokedKey (record : ValidationRecord) : Option (List UInt8) :=
  metaHex record (Str.text "revoked_public_key")

section

variable [Sha3]

def extractRevocation (record : ValidationRecord) : Option RevocationEntry :=
  if metaFlag record revocationOpKey then
    (revokedKey record).map fun revokedPublicKey =>
      { revokedKeyHash := sha3Hex revokedPublicKey
        revokedPublicKey
        revokedAt := record.timestamp
        reason := metaReason record (Str.text "revocation_reason")
        recordId := record.id
        identityHash := creatorIdentityHash record }
  else none

/-- Does the key revoke itself? -/
def revocationAuthorized (record : ValidationRecord) : Bool :=
  match revokedKey record with
  | none => false
  | some revoked => sha3Hex revoked = creatorIdentityHash record

end

/-! ### The registry -/

structure KeyRegistry where
  rotations : Table Str (List KeyRotation)
  sphincsRotations : Table Str (List KeyRotation)
  /-- The hashes of the revoked keys. -/
  revoked : Finset Str
  revocations : List RevocationEntry

namespace KeyRegistry

def new : KeyRegistry := ⟨∅, ∅, ∅, []⟩

def registerRotation (g : KeyRegistry) (identityHash : Str) (rotation : KeyRotation) : KeyRegistry :=
  { g with rotations := g.rotations.upsert identityHash [] (· ++ [rotation]) }

def registerSphincsRotation (g : KeyRegistry) (identityHash : Str) (rotation : KeyRotation) :
    KeyRegistry :=
  { g with sphincsRotations := g.sphincsRotations.upsert identityHash [] (· ++ [rotation]) }

def registerRevocation (g : KeyRegistry) (entry : RevocationEntry) : KeyRegistry :=
  { g with revoked := insert entry.revokedKeyHash g.revoked, revocations := g.revocations ++ [entry] }

variable [Sha3]

def isRevoked (g : KeyRegistry) (publicKey : List UInt8) : Bool := sha3Hex publicKey ∈ g.revoked

def noteRotations (g : KeyRegistry) (record : ValidationRecord) : KeyRegistry :=
  let g := match extractKeyRotation record with
    | some rotation => g.registerRotation (creatorIdentityHash record) rotation
    | none => g
  match extractSphincsRotation record with
  | some rotation => g.registerSphincsRotation (creatorIdentityHash record) rotation
  | none => g

def noteRevocation (g : KeyRegistry) (record : ValidationRecord) : KeyRegistry :=
  match extractRevocation record with
  | some revocation => g.registerRevocation revocation
  | none => g

/-- One record, whose revocation counts if the key revokes itself. -/
def processRecord (g : KeyRegistry) (record : ValidationRecord) : KeyRegistry :=
  let g := g.noteRotations record
  if revocationAuthorized record then g.noteRevocation record else g

def replayRecord (g : KeyRegistry) (record : ValidationRecord) : KeyRegistry :=
  (g.noteRotations record).noteRevocation record

/-- The registry of all records, in the order of their timestamps and identifiers. -/
def rebuildRegistryFromRecords (allRecords : List ValidationRecord) : KeyRegistry :=
  (allRecords.insertionSort Earlier).foldl replayRecord new

end KeyRegistry

open KeyRegistry

section

variable [Sha3] {g : KeyRegistry} {l l' : List ValidationRecord} {known : Set (List UInt8)}

/-! ### What is revoked -/

def Revokes (record : ValidationRecord) (key : List UInt8) : Prop :=
  metaFlag record revocationOpKey = true ∧ revokedKey record = some key

structure OwnRevocation (record : ValidationRecord) (key : List UInt8) : Prop where
  revokes : Revokes record key
  own : record.creatorPublicKey = key

/-- The hash tells the keys apart that the records name or are created by. -/
structure KnownKeys (l : List ValidationRecord) (known : Set (List UInt8)) : Prop where
  creator : ∀ r ∈ l, r.creatorPublicKey ∈ known
  named : ∀ r ∈ l, ∀ key, revokedKey r = some key → key ∈ known
  injective : Set.InjOn sha3_256 known

theorem revoked_noteRotations (g : KeyRegistry) (r : ValidationRecord) :
    (g.noteRotations r).revoked = g.revoked := by
  unfold noteRotations
  cases extractKeyRotation r with
  | none => cases extractSphincsRotation r <;> rfl
  | some rotation => cases extractSphincsRotation r <;> rfl

theorem mem_revoked_noteRevocation {r : ValidationRecord} {hash : Str} :
    hash ∈ (g.noteRevocation r).revoked ↔ hash ∈ g.revoked ∨ ∃ key, Revokes r key ∧ sha3Hex key = hash := by
  unfold noteRevocation extractRevocation Revokes
  cases hflag : metaFlag r revocationOpKey with
  | false => simp
  | true =>
    cases hkey : revokedKey r with
    | none => simp
    | some key => simp [registerRevocation, eq_comm, or_comm]

theorem mem_revoked_replayRecord {r : ValidationRecord} {hash : Str} :
    hash ∈ (g.replayRecord r).revoked ↔ hash ∈ g.revoked ∨ ∃ key, Revokes r key ∧ sha3Hex key = hash := by
  rw [replayRecord, mem_revoked_noteRevocation, revoked_noteRotations]

theorem mem_revoked_processRecord {r : ValidationRecord} {hash : Str} :
    hash ∈ (g.processRecord r).revoked ↔ hash ∈ g.revoked ∨
      ∃ key, Revokes r key ∧ sha3Hex key = creatorIdentityHash r ∧ sha3Hex key = hash := by
  have hauth : ∀ key, Revokes r key →
      (revocationAuthorized r = true ↔ sha3Hex key = creatorIdentityHash r) := by
    rintro key ⟨-, hkey⟩
    rw [revocationAuthorized, hkey, decide_eq_true_iff]
  unfold processRecord
  dsimp only
  split
  · next h =>
    rw [mem_revoked_noteRevocation, revoked_noteRotations]
    refine or_congr_right (exists_congr fun key => and_congr_right fun hkey => ?_)
    rw [and_iff_right ((hauth key hkey).mp h)]
  · next h =>
    rw [revoked_noteRotations]
    refine (or_iff_left ?_).symm
    rintro ⟨key, hkey, heq, -⟩
    exact h ((hauth key hkey).mpr heq)

omit [Sha3] in
theorem notMem_revoked_new (hash : Str) : hash ∉ new.revoked := Finset.notMem_empty hash

omit [Sha3] in
/-- Records that each add hashes to the revoked ones. -/
theorem mem_revoked_foldl {f : KeyRegistry → ValidationRecord → KeyRegistry}
    {adds : ValidationRecord → Str → Prop}
    (hf : ∀ g r hash, hash ∈ (f g r).revoked ↔ hash ∈ g.revoked ∨ adds r hash) (hash : Str)
    (l : List ValidationRecord) (g : KeyRegistry) :
    hash ∈ (l.foldl f g).revoked ↔ hash ∈ g.revoked ∨ ∃ r ∈ l, adds r hash := by
  induction l generalizing g with
  | nil => simp
  | cons r l ih => rw [List.foldl_cons, ih, hf, List.exists_mem_cons_iff, or_assoc]

theorem sha3Hex_inj (h : Set.InjOn sha3_256 known) {key key' : List UInt8} (hkey : key ∈ known)
    (hkey' : key' ∈ known) (heq : sha3Hex key = sha3Hex key') : key = key' :=
  h hkey hkey' (Smt.Bytes32.ext (Str.hex_injective heq))

/-- Record by record, a key is revoked exactly if it revokes itself. -/
theorem isRevoked_foldl_processRecord (h : KnownKeys l known) {key : List UInt8} (hkey : key ∈ known) :
    (l.foldl processRecord new).isRevoked key = true ↔ ∃ r ∈ l, OwnRevocation r key := by
  rw [isRevoked, decide_eq_true_iff, mem_revoked_foldl (f := processRecord) fun _ _ _ => mem_revoked_processRecord,
    or_iff_right (notMem_revoked_new _)]
  refine exists_congr fun r => and_congr_right fun hr => ?_
  constructor
  · rintro ⟨k, hrevokes, hcreator, hhash⟩
    have hk := h.named r hr k hrevokes.2
    obtain rfl := sha3Hex_inj h.injective hk hkey hhash
    exact ⟨hrevokes, (sha3Hex_inj h.injective hk (h.creator r hr) hcreator).symm⟩
  · intro hown
    exact ⟨key, hown.revokes, by rw [creatorIdentityHash, hown.own], rfl⟩

/-- In a rebuild, a key is revoked exactly if some record says so. -/
theorem isRevoked_rebuild (h : KnownKeys l known) {key : List UInt8} (hkey : key ∈ known) :
    (rebuildRegistryFromRecords l).isRevoked key = true ↔ ∃ r ∈ l, Revokes r key := by
  rw [isRevoked, decide_eq_true_iff, rebuildRegistryFromRecords,
    mem_revoked_foldl (f := replayRecord) fun _ _ _ => mem_revoked_replayRecord, or_iff_right (notMem_revoked_new _)]
  simp only [List.mem_insertionSort]
  refine exists_congr fun r => and_congr_right fun hr => ?_
  constructor
  · rintro ⟨k, hrevokes, hhash⟩
    obtain rfl := sha3Hex_inj h.injective (h.named r hr k hrevokes.2) hkey hhash
    exact hrevokes
  · intro hrevokes
    exact ⟨key, hrevokes, rfl⟩

theorem KnownKeys.perm (h : KnownKeys l known) (hperm : l'.Perm l) : KnownKeys l' known :=
  ⟨fun r hr => h.creator r (hperm.mem_iff.mp hr), fun r hr => h.named r (hperm.mem_iff.mp hr),
    h.injective⟩

/-- In whatever order the records come, both registries have the keys that revoke themselves. -/
structure OnlyOwnersRevoke (l : List ValidationRecord) (known : Set (List UInt8)) : Prop where
  streamed : ∀ l' : List ValidationRecord, l'.Perm l → ∀ key ∈ known,
    ((l'.foldl processRecord new).isRevoked key = true ↔ ∃ r ∈ l, OwnRevocation r key)
  rebuilt : ∀ l' : List ValidationRecord, l'.Perm l → ∀ key ∈ known,
    ((rebuildRegistryFromRecords l').isRevoked key = true ↔ ∃ r ∈ l, OwnRevocation r key)

/-- **Only owners revoke keys** in both registries exactly if each key that some record revokes also
revokes itself.  The registry that is built record by record never has other keys. -/
theorem onlyOwnersRevoke_iff (h : KnownKeys l known) :
    OnlyOwnersRevoke l known ↔
      ∀ r ∈ l, ∀ key, Revokes r key → ∃ r' ∈ l, OwnRevocation r' key := by
  constructor
  · intro howners r hr key hrevokes
    have hkey := h.named r hr key hrevokes.2
    have hrebuilt := howners.rebuilt l (List.Perm.refl l) key hkey
    exact hrebuilt.mp ((isRevoked_rebuild h hkey).mpr ⟨r, hr, hrevokes⟩)
  · intro hown
    constructor
    · intro l' hperm key hkey
      rw [isRevoked_foldl_processRecord (h.perm hperm) hkey]
      simp only [hperm.mem_iff]
    · intro l' hperm key hkey
      rw [isRevoked_rebuild (h.perm hperm) hkey]
      simp only [hperm.mem_iff]
      constructor
      · rintro ⟨r, hr, hrevokes⟩
        exact hown r hr key hrevokes
      · rintro ⟨r, hr, hr'⟩
        exact ⟨r, hr, hr'.revokes⟩

end

section Samples

attribute [local instance] Smt.guardedSha3

/-- The holder of a key revokes the first key. -/
def revocationBy (key : UInt8) : ValidationRecord :=
  { Record.sampleRecord [] with
    creatorPublicKey := [key]
    metadata := [(revocationOpKey, .bool true),
      (Str.text "revoked_public_key", .string (Str.text "01"))] }

/-- The first key revokes itself after the second one tried to. -/
theorem onlyOwnersRevoke_iff_self :
    OnlyOwnersRevoke [revocationBy 2, revocationBy 1] {[1], [2]} := by
  have hnamed : ∀ r ∈ [revocationBy 2, revocationBy 1], revokedKey r = some [1] := by decide +kernel
  have hknown : KnownKeys [revocationBy 2, revocationBy 1] {[1], [2]} := by
    refine ⟨by decide +kernel, fun r hr key hkey => ?_, ?_⟩
    · rw [hnamed r hr] at hkey
      exact .inl (Option.some.inj hkey).symm
    · refine Set.injOn_pair.mpr ?_
      decide +kernel
  refine (onlyOwnersRevoke_iff hknown).mpr fun r hr key hrevokes => ?_
  have hkey := hrevokes.2
  rw [hnamed r hr] at hkey
  cases hkey
  have hown : Revokes (revocationBy 1) [1] := ⟨by decide +kernel, hnamed _ (by simp)⟩
  exact ⟨revocationBy 1, by simp, hown, rfl⟩

/-- A record by the second key revokes the first one in a rebuild. -/
theorem foreign_revocation_rebuilt :
    (rebuildRegistryFromRecords [revocationBy 2]).isRevoked [1] = true ∧
      ([revocationBy 2].foldl processRecord new).isRevoked [1] = false := by
  decide +kernel

end Samples

end ElaraMesh.Network
