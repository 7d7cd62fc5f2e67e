import ElaraMesh.Ledger.CrossZone

/-!
# Transition seals

A transition seal closes zones and opens others: a split closes one zone and opens two, a
merge closes two and opens one.  It takes effect some epochs after it was proposed, and only
with the signatures of enough anchors.

A seal is identified by the hash of its JSON form without the signatures.  The serializer is
a parameter, as are the hash and the verification of a signature.

## Main definitions

* `TransitionSeal` — a seal; `validateStructure` the checks of its form.
* `sealHashForSig` — its identifier.
* `plainJson` — a serializer to evaluate, of all fields.
-/

namespace ElaraMesh.Zones

open Framing (decimal netstring ofBigEndian)
open Record (Str ZoneId)
open Smt (Bytes32 Sha3 sha3_256)

def splitAnchorThreshold : ℕ := 4

def mergeAnchorThreshold : ℕ := 7

/-- Epochs from the proposal of a transition to its effect. -/
def transitionDisputeWindowEpochs : ℕ := 3

/-- The most signatures a seal may carry. -/
def maxProposerSigs : ℕ := 32

inductive TransitionKind where
  | split
  | merge
  deriving DecidableEq

/-- The state of a zone that is closed or opened. -/
structure ZoneSnapshot where
  zoneId : ZoneId
  stateRoot : Bytes32
  lastSealRecordId : Str
  recordCount : ℕ
  committeeHash : Bytes32
  deriving DecidableEq

structure AnchorSig where
  anchorIdentityHash : Bytes32
  dilithium3Sig : List UInt8
  deriving DecidableEq

/-- The boundary between two layouts of the zones. -/
@[ext] structure TransitionSeal where
  kind : TransitionKind
  effectiveEpoch : ℕ
  proposedAtEpoch : ℕ
  parents : List ZoneSnapshot
  children : List ZoneSnapshot
  /-- For a split: accounts below go to the first child, the others to the second. -/
  splitKey : Option Bytes32
  proposerSigs : List AnchorSig
  /-- Which bytes the anchors sign. -/
  sigDomain : Option UInt8
  deriving DecidableEq

/-- Why the form of a seal is refused, with the numbers that the message gives. -/
inductive StructureError where
  | windowMismatch (proposed effective window : ℕ)
  | tooManySigs (count : ℕ)
  | splitParents (count : ℕ)
  | splitChildren (count : ℕ)
  | splitWithoutKey
  | mergeParents (count : ℕ)
  | mergeChildren (count : ℕ)
  | mergeWithKey
  | mergeSameParents
  deriving DecidableEq

class SealJson where
  toVec : TransitionSeal → List UInt8

namespace TransitionSeal

def validateStructure (t : TransitionSeal) : Except StructureError Unit :=
  if U64.satAdd t.proposedAtEpoch transitionDisputeWindowEpochs ≠ t.effectiveEpoch then
    .error (.windowMismatch t.proposedAtEpoch t.effectiveEpoch transitionDisputeWindowEpochs)
  else if t.proposerSigs.length > maxProposerSigs then
    .error (.tooManySigs t.proposerSigs.length)
  else
    match t.kind with
    | .split =>
      if t.parents.length ≠ 1 then .error (.splitParents t.parents.length)
      else if t.children.length ≠ 2 then .error (.splitChildren t.children.length)
      else if t.splitKey.isNone then .error .splitWithoutKey
      else .ok ()
    | .merge =>
      if t.parents.length ≠ 2 then .error (.mergeParents t.parents.length)
      else if t.children.length ≠ 1 then .error (.mergeChildren t.children.length)
      else if t.splitKey.isSome then .error .mergeWithKey
      else if t.parents[0]?.map ZoneSnapshot.zoneId = t.parents[1]?.map ZoneSnapshot.zoneId then
        .error .mergeSameParents
      else .ok ()

/-- The number of anchors that have to sign a seal. -/
def requiredThreshold (t : TransitionSeal) : ℕ :=
  match t.kind with
  | .split => splitAnchorThreshold
  | .merge => mergeAnchorThreshold

def unsigned (t : TransitionSeal) : TransitionSeal := { t with proposerSigs := [] }

section Hash

variable [SealJson] [Sha3]

def canonicalEncodeForSig (t : TransitionSeal) : List UInt8 := SealJson.toVec t.unsigned

def sealHashForSig (t : TransitionSeal) : Bytes32 := sha3_256 t.canonicalEncodeForSig

end Hash

end TransitionSeal

/-! ### A serializer to evaluate -/

def ZoneSnapshot.fields (s : ZoneSnapshot) : List (List UInt8) :=
  [s.zoneId.path, decimal (ofBigEndian s.stateRoot.data), s.lastSealRecordId.bytes,
    decimal s.recordCount, decimal (ofBigEndian s.committeeHash.data)]

def AnchorSig.fields (s : AnchorSig) : List (List UInt8) :=
  [decimal (ofBigEndian s.anchorIdentityHash.data), s.dilithium3Sig]

def TransitionSeal.fields (t : TransitionSeal) : List (List UInt8) :=
  [[match t.kind with | .split => 0 | .merge => 1], decimal t.effectiveEpoch,
    decimal t.proposedAtEpoch, (t.parents.flatMap ZoneSnapshot.fields).flatMap netstring,
    (t.children.flatMap ZoneSnapshot.fields).flatMap netstring,
    t.splitKey.elim [] fun key => decimal (ofBigEndian key.data),
    (t.proposerSigs.flatMap AnchorSig.fields).flatMap netstring, t.sigDomain.elim [] fun d => [d]]

/-- All fields of a seal, each behind its length. -/
@[reducible] def plainJson : SealJson := ⟨fun t => t.fields.flatMap netstring⟩

end ElaraMesh.Zones
