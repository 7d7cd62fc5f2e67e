import ElaraMesh.ZoneTree.CrossZone

/-!
# The state of a light client

A light client keeps the headers of the epoch seals of each zone and no records.  A header is
taken if its epoch follows that of the last header of the zone and it names the hash that the
last header gives for its seal; the first header of a zone has to name the baseline of the
checkpoint of the zone, if there is one.  All these hashes are fields of the headers.

## Main results

* `LightState.checkHeader_eq_ok_iff` — a header is taken if and only if it links.
* `LightState.headersOf_addHeader` — what the headers of a zone are after one more.
-/

namespace ElaraMesh.Light

open Record (Str Value Unicode ZoneId hexDecode)
open Seal (MerkleProof MerkleTree.verifySealProofFor)
open Smt (Bytes32 Sha3)
open ZoneTree (getKey hash32 readZone)

/-! ### Headers -/

structure EpochHeader where
  zone : ZoneId
  epochNumber : ℕ
  merkleRoot : Bytes32
  previousSealHash : Bytes32
  recordCount : ℕ
  startTs : F64
  endTs : F64
  accountSmtRoot : Option Bytes32
  /-- The hash of the record of this seal; some seeds do not send it. -/
  sealRecordHash : Option Bytes32
  /-- The wire version of the record of the seal; 0 if it is unknown. -/
  sealWireVersion : UInt16
  deriving DecidableEq

def decodeHex32 (text : Str) : Option Bytes32 := (hexDecode text.bytes).bind hash32

/-- A hash in hexadecimal digits under a key. -/
def hexKey (v : Value) (key : String) : Option Bytes32 :=
  ((getKey key v).bind Value.asStr).bind decodeHex32

/-- An unsigned integer under a key. -/
def u64Key (v : Value) (key : String) : Option ℕ :=
  ((getKey key v).bind Value.asU64).map UInt64.toNat

def parseHeaderJson [Unicode] (v : Value) : Option EpochHeader := do
  let zone ← (getKey "zone" v).bind readZone
  let epochNumber ← u64Key v "epoch_number"
  let merkleRoot ← hexKey v "merkle_root"
  let previousSealHash ← hexKey v "previous_seal_hash"
  let recordCount ← u64Key v "record_count"
  let startTs ← (getKey "start" v).bind Value.asF64
  let endTs ← (getKey "end" v).bind Value.asF64
  let sealWireVersion := ((getKey "seal_wire_version" v).bind
    (Value.asUnsigned (2 ^ 16 - 1))).elim 0 UInt16.ofNat
  return {
    zone, epochNumber, merkleRoot, previousSealHash, recordCount, startTs, endTs
    accountSmtRoot := hexKey v "account_smt_root"
    sealRecordHash := hexKey v "seal_record_hash"
    sealWireVersion }

/-! ### Checkpoints and the state -/

/-- What the signature of a super-seal was checked against. -/
inductive TrustGrade where
  | anchorPinned : TrustGrade
  /-- The key in the record itself. -/
  | reference : TrustGrade
  deriving DecidableEq

/-- The super-seal that the headers of a zone start from. -/
structure CheckpointMark where
  zone : ZoneId
  startEpoch : ℕ
  endEpoch : ℕ
  sealCount : ℕ
  recordId : Str
  recordHash : Bytes32
  committeeHash : Bytes32
  coverageVerified : Bool
  trustGrade : TrustGrade
  /-- The hash of the seal of the last epoch, if it is known. -/
  baselineSealHash : Option Bytes32
  deriving DecidableEq

structure LightState where
  headers : Table ZoneId (List EpochHeader)
  latestRoots : Table ZoneId Bytes32
  checkpoints : Table ZoneId CheckpointMark
  checkpointSkipAttempted : Bool

inductive AddHeaderError where
  | epochGap (expected got : ℕ) : AddHeaderError
  | chainBreak (epochNumber : ℕ) : AddHeaderError
  | firstEpoch (zone : ZoneId) (epochNumber expected : ℕ) : AddHeaderError
  | firstLink (zone : ZoneId) (endEpoch : ℕ) : AddHeaderError
  /-- The next epoch number does not fit: the addition panics. -/
  | overflow : AddHeaderError
  deriving DecidableEq

namespace LightState

def new : LightState := ⟨∅, ∅, ∅, false⟩

def headersOf (s : LightState) (zone : ZoneId) : List EpochHeader := s.headers.getD zone []

/-- The last epoch of the checkpoint of a zone and the hash of its seal. -/
def checkpointBaseline (s : LightState) (zone : ZoneId) : Option (ℕ × Bytes32) :=
  (s.checkpoints.lookup zone).bind fun cp => cp.baselineSealHash.map fun b => (cp.endEpoch, b)

def checkHeader (s : LightState) (header : EpochHeader) : Except AddHeaderError Unit :=
  match (s.headersOf header.zone).getLast? with
  | some last =>
    match U64.checkedAdd last.epochNumber 1 with
    | none => .error .overflow
    | some expected =>
      if header.epochNumber ≠ expected then .error (.epochGap expected header.epochNumber)
      else
        match last.sealRecordHash with
        | some lastRecordHash =>
          if header.previousSealHash ≠ lastRecordHash then .error (.chainBreak header.epochNumber)
          else .ok ()
        | none => .ok ()
  | none =>
    match s.checkpointBaseline header.zone with
    | some (cpEnd, baseline) =>
      match U64.checkedAdd cpEnd 1 with
      | none => .error .overflow
      | some expected =>
        if header.epochNumber ≠ expected then
          .error (.firstEpoch header.zone header.epochNumber expected)
        else if header.previousSealHash ≠ baseline then .error (.firstLink header.zone cpEnd)
        else .ok ()
    | none => .ok ()

/-- Take a header.  A header that is refused leaves an entry for its zone. -/
def addHeader (s : LightState) (header : EpochHeader) : LightState × Except AddHeaderError Unit :=
  match s.checkHeader header with
  | .ok () =>
    ({ s with
        latestRoots := s.latestRoots.insert header.zone header.merkleRoot
        headers := s.headers.insert header.zone (s.headersOf header.zone ++ [header]) }, .ok ())
  | .error e => ({ s with headers := s.headers.insert header.zone (s.headersOf header.zone) },
      .error e)

/-- The headers of a seed, one after the other. -/
def run (s : LightState) (offered : List EpochHeader) : LightState :=
  offered.foldl (fun s header => (s.addHeader header).1) s

def follows (prev curr : EpochHeader) : Bool :=
  curr.epochNumber = prev.epochNumber + 1 &&
    prev.sealRecordHash.all fun prevHash => curr.previousSealHash = prevHash

def verifyRecord [Sha3] (s : LightState) (zone : ZoneId) (epochNumber : ℕ) (proof : MerkleProof) :
    Bool :=
  match (s.headersOf zone).find? fun h => h.epochNumber = epochNumber with
  | some h =>
    if proof.root ≠ h.merkleRoot then false
    else MerkleTree.verifySealProofFor h.sealWireVersion proof
  | none => false

/-! ### Which headers are taken -/

/-- The header links to the last one of its zone, or to the baseline. -/
def Links (s : LightState) (header : EpochHeader) : Prop :=
  match (s.headersOf header.zone).getLast? with
  | some last => last.epochNumber + 1 ≤ U64.max ∧ follows last header
  | none => ∀ cpEnd baseline, s.checkpointBaseline header.zone = some (cpEnd, baseline) →
      cpEnd + 1 ≤ U64.max ∧ header.epochNumber = cpEnd + 1 ∧ header.previousSealHash = baseline

variable {s : LightState} {header : EpochHeader}

theorem checkHeader_eq_ok_iff : s.checkHeader header = .ok () ↔ s.Links header := by
  unfold checkHeader Links follows U64.checkedAdd
  cases (s.headersOf header.zone).getLast? with
  | some last =>
    by_cases hfits : last.epochNumber + 1 ≤ U64.max
    · by_cases hepoch : header.epochNumber = last.epochNumber + 1
      · cases hhash : last.sealRecordHash <;> simp [hfits, hepoch, hhash]
      · simp [hfits, hepoch]
    · simp [hfits]
  | none =>
    cases s.checkpointBaseline header.zone with
    | none => simp
    | some p =>
      obtain ⟨cpEnd, baseline⟩ := p
      have hbaseline : (∀ e b, some (cpEnd, baseline) = some (e, b) → e + 1 ≤ U64.max ∧
          header.epochNumber = e + 1 ∧ header.previousSealHash = b) ↔ cpEnd + 1 ≤ U64.max ∧
          header.epochNumber = cpEnd + 1 ∧ header.previousSealHash = baseline :=
        ⟨fun h => h _ _ rfl, fun h e b heq => by cases heq; exact h⟩
      rw [hbaseline]
      by_cases hfits : cpEnd < U64.max
      · by_cases hepoch : header.epochNumber = cpEnd + 1 <;> simp [hfits, hepoch]
      · simp [hfits]

/-- The headers of a zone after one more was offered. -/
theorem headersOf_addHeader (s : LightState) (header : EpochHeader) (zone : ZoneId) :
    (s.addHeader header).1.headersOf zone = s.headersOf zone ∧
        (header.zone = zone → ¬ s.Links header) ∨
      (s.addHeader header).1.headersOf zone = s.headersOf zone ++ [header] ∧
        header.zone = zone ∧ s.Links header := by
  rw [← checkHeader_eq_ok_iff]
  unfold addHeader
  cases hcheck : s.checkHeader header with
  | ok =>
    by_cases hzone : header.zone = zone
    · subst hzone
      exact Or.inr ⟨(Table.getD_insert ..).trans (if_pos rfl), rfl, rfl⟩
    · exact Or.inl ⟨(Table.getD_insert ..).trans (if_neg (Ne.symm hzone)), fun h => absurd h hzone⟩
  | error e =>
    refine Or.inl ⟨(Table.getD_insert ..).trans ?_, fun _ h => nomatch h⟩
    split
    · next hzone => rw [hzone]
    · rfl

theorem checkpoints_addHeader (s : LightState) (header : EpochHeader) :
    (s.addHeader header).1.checkpoints = s.checkpoints := by
  unfold addHeader
  split <;> rfl

/-! ### The chain -/

/-- Every header of a zone follows the one before it. -/
def verifyChain (s : LightState) (zone : ZoneId) : Bool :=
  ((s.headersOf zone).zip (s.headersOf zone).tail).all fun w => follows w.1 w.2

theorem verifyChain_iff {zone : ZoneId} : s.verifyChain zone = true ↔
    (s.headersOf zone).IsChain fun prev curr => follows prev curr = true := by
  unfold verifyChain
  induction s.headersOf zone with
  | nil => simp
  | cons h headers ih =>
    cases headers with
    | nil => simp
    | cons h' headers =>
      rw [List.isChain_cons_cons, ← ih]
      simp

theorem verifyChain_addHeader (s : LightState) (header : EpochHeader) (zone : ZoneId) :
    (s.addHeader header).1.verifyChain zone = s.verifyChain zone := by
  rw [Bool.eq_iff_iff, verifyChain_iff, verifyChain_iff]
  obtain ⟨heq, -⟩ | ⟨heq, rfl, hlinks⟩ := headersOf_addHeader s header zone
  · rw [heq]
  · rw [heq, List.isChain_append]
    refine and_iff_left ⟨List.isChain_singleton _, fun last hlast h hh => ?_⟩
    obtain rfl : header = h := Option.some.inj hh
    unfold Links at hlinks
    rw [Option.mem_def.mp hlast] at hlinks
    exact hlinks.2

/-- **No seed breaks a chain**, whatever headers it offers. -/
theorem verifyChain_run (s : LightState) (offered : List EpochHeader) (zone : ZoneId) :
    (s.run offered).verifyChain zone = s.verifyChain zone := by
  induction offered generalizing s with
  | nil => rfl
  | cons header offered ih => exact (ih _).trans (verifyChain_addHeader s header zone)

end LightState

end ElaraMesh.Light
