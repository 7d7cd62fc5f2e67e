import ElaraMesh.Ledger.ProofIndex
import ElaraMesh.Seal.Merkle

/-!
# Proofs from a seal

A seal that covers the record of a lock attaches its path to the transfer.  Whether a
transfer is sealed is read off its path: cancelling, rejecting and refunding are refused if
the path is not empty, and a claim is if it is.  The path in a seal over one record is empty.

## Main results

* `treatedAsSealed_iff` — a covered transfer is taken for sealed if and only if the seal
  covers another record besides, or the transfer had such a path before.
-/

namespace ElaraMesh.Seal

open Ledger
open Record (Str ZoneId)
open Smt (Sha3 Bytes32)

section Definitions

variable [Sha3]

/-- The fields of a seal that speak of its records.  The hashes are dropped when a seal is
read if they do not lead to its root. -/
structure ParsedEpochSeal where
  merkleRoot : Bytes32
  recordHashes : List Bytes32
  wireVersion : UInt16
  /-- The committees of the zones that transfers go to, by the paths of the zones. -/
  xzoneDestFinalityCommittees : Option (Table (List UInt8) (Bytes32 × UInt32))
  enumerated : recordHashes ≠ [] → MerkleTree.sealRootFor wireVersion recordHashes = merkleRoot

/-- The signatures of the committee over a seal. -/
structure SealFinalityCollection where
  signers : List SealFinalityWitness
  committeeHash : Bytes32
  sealEpoch : UInt64
  committeeSize : UInt32

/-- The transfers that wait for the proof of a record of the seal. -/
def transfersToProof (c : CrossZoneState) (hashes : List Bytes32) : List (Str × Bytes32 × ZoneId) :=
  hashes.flatMap fun h => (Table.getD c.needsProofIndex h []).filterMap fun id =>
    match c.pending.lookup id with
    | some t => if t.status = .locked ∧ t.merkleProof = [] then
        some (id, t.lockRecordHash, t.destZone) else none
    | none => none

def witness (c : CrossZoneState) (id : Str) (finality : Option SealFinalityCollection) :
    CrossZoneState :=
  match finality with
  | some coll => c.orKeep (c.setFinalityWitnesses id coll.signers coll.committeeHash coll.sealEpoch
      coll.committeeSize)
  | none => c

/-- Freeze the committee that may abort. -/
def anchor (c : CrossZoneState) (id : Str) (committee : Option (Bytes32 × UInt32)) :
    CrossZoneState :=
  match committee with
  | some committee => c.anchorDestCommittee id committee
  | none => c

/-- Attach the path of a lock record, what was signed of the seal and the committee that may
abort. -/
def attachProof (parsed : ParsedEpochSeal) (finality : Option SealFinalityCollection)
    (acc : CrossZoneState × ℕ) (entry : Str × Bytes32 × ZoneId) : CrossZoneState × ℕ :=
  let (id, lockHash, destZone) := entry
  if lockHash ∈ parsed.recordHashes then
    match MerkleTree.sealProofFor parsed.wireVersion parsed.recordHashes lockHash with
    | some proof =>
      let siblings := proof.siblings.map fun n => ⟨n.hash, n.isRight⟩
      let c := acc.1.orKeep (acc.1.setProof id siblings parsed.merkleRoot parsed.wireVersion)
      let c := witness c id finality
      let c := anchor c id (parsed.xzoneDestFinalityCommittees.bind fun m => m.lookup destZone.path)
      (c, acc.2 + 1)
    | none => acc
  else acc

/-- Attach the paths of a seal to the transfers whose locks it covers, and count them. -/
def attachXzoneProofsFromSealWithFinality (c : CrossZoneState) (parsed : ParsedEpochSeal)
    (finality : Option SealFinalityCollection) : CrossZoneState × ℕ :=
  if parsed.recordHashes = [] then (c, 0)
  else (transfersToProof c parsed.recordHashes).foldl (attachProof parsed finality) (c, 0)

/-- The refusal of a claim that has no proof. -/
def missingProof (id : Str) : Stop :=
  ledgerError [.text "transfer ", .str id,
    .text " lock not yet committed to epoch seal (no merkle proof)"]

/-- The transfer `t` is taken for sealed by the seal: its path verifies, it is not given back
before its time, and no claim is refused for lack of a proof. -/
structure TreatedAsSealed [Dilithium] (parsed : ParsedEpochSeal) (c : CrossZoneState) (id : Str)
    (t : PendingTransfer) : Prop where
  proved : ∃ t', c.pending.lookup id = some t' ∧ verifySealInclusionProof parsed.wireVersion
    t.lockRecordHash t'.merkleProof parsed.merkleRoot = true
  notCancelled : ∀ result, c.cancelTransfer id t.sender ≠ .ok result
  notRejected : ∀ result, c.rejectTransfer id t.recipient ≠ .ok result
  notRefunded : ∀ batch, ((c.applyRefundBatch batch).1.pending.lookup id).any
    fun t' => t'.status = .locked
  claimable : ∀ claimer claimRecordId timestamp,
    c.claimTransfer id claimer claimRecordId timestamp ≠ .error (missingProof id)

end Definitions

/-! ### What is attached -/

/-- The operation leaves the transfers other than `id` alone. -/
def Touches (id : Str) (c c' : CrossZoneState) : Prop :=
  ∀ id', id' ≠ id → c'.pending.lookup id' = c.pending.lookup id'

/-- The transfer `u` is `t`, but for what is signed of its seal. -/
structure SameSeal (t u : PendingTransfer) : Prop where
  status : u.status = t.status
  sender : u.sender = t.sender
  recipient : u.recipient = t.recipient
  lockRecordHash : u.lockRecordHash = t.lockRecordHash
  merkleProof : u.merkleProof = t.merkleProof
  root : u.sourceMerkleRoot = t.sourceMerkleRoot
  version : u.sourceSealWireVersion = t.sourceSealWireVersion

section Touches

variable {c c' c'' : CrossZoneState} {id : Str} {t u : PendingTransfer}

theorem SameSeal.refl (t : PendingTransfer) : SameSeal t t := ⟨rfl, rfl, rfl, rfl, rfl, rfl, rfl⟩

theorem Touches.refl (id : Str) (c : CrossZoneState) : Touches id c c := fun _ _ => rfl

theorem Touches.trans (h : Touches id c c') (h' : Touches id c' c'') : Touches id c c'' :=
  fun id' hne => (h' id' hne).trans (h id' hne)

theorem Touches.of_insert (hpending : c'.pending = c.pending.insert id t) : Touches id c c' := by
  intro id' hne
  rw [hpending, AList.lookup_insert_ne hne]

theorem touches_orKeep {result : Except Stop CrossZoneState}
    (h : ∀ c', result = .ok c' → Touches id c c') : Touches id c (c.orKeep result) := by
  cases result with
  | ok c' => exact h c' rfl
  | error e => exact .refl id c

theorem touches_setProof (c : CrossZoneState) (id : Str) (proof : List ProofSibling)
    (root : Bytes32) (version : UInt16) :
    Touches id c (c.orKeep (c.setProof id proof root version)) := by
  refine touches_orKeep fun c' hok => ?_
  obtain ⟨t, -, -, hpending, -⟩ := CrossZoneState.setProof_ok hok
  exact .of_insert hpending

theorem lookup_setProof {proof : List ProofSibling} {root : Bytes32} {version : UInt16}
    (hlookup : c.pending.lookup id = some t) (hlocked : t.status = .locked) :
    (c.orKeep (c.setProof id proof root version)).pending.lookup id =
      some (CrossZoneState.withProof t proof root version) := by
  obtain ⟨c', hok⟩ := CrossZoneState.setProof_of_locked hlookup hlocked proof root version
  obtain ⟨t', hlookup', -, hpending, -⟩ := CrossZoneState.setProof_ok hok
  cases hlookup.symm.trans hlookup'
  rw [hok]
  show c'.pending.lookup id = _
  rw [hpending, AList.lookup_insert]

theorem touches_witness (c : CrossZoneState) (id : Str) (finality : Option SealFinalityCollection) :
    Touches id c (witness c id finality) := by
  cases finality with
  | none => exact .refl id c
  | some coll =>
    refine touches_orKeep fun c' hok => ?_
    obtain ⟨t, -, h⟩ := Tx.bind_eq_ok.mp hok
    obtain ⟨_, -, h⟩ := Tx.bind_eq_ok.mp h
    obtain rfl := Except.ok.inj h
    exact .of_insert rfl

theorem lookup_witness (hlookup : c.pending.lookup id = some t)
    (finality : Option SealFinalityCollection) :
    ∃ u, (witness c id finality).pending.lookup id = some u ∧ SameSeal t u := by
  cases finality with
  | none => exact ⟨t, hlookup, .refl t⟩
  | some coll =>
    unfold witness
    dsimp only
    cases hok : c.setFinalityWitnesses id coll.signers coll.committeeHash coll.sealEpoch
      coll.committeeSize with
    | error e => exact ⟨t, hlookup, .refl t⟩
    | ok c' =>
      obtain ⟨t', hfind, h⟩ := Tx.bind_eq_ok.mp hok
      obtain ⟨_, -, h⟩ := Tx.bind_eq_ok.mp h
      obtain rfl := Except.ok.inj h
      cases hlookup.symm.trans (CrossZoneState.find_ok hfind)
      exact ⟨_, AList.lookup_insert _, rfl, rfl, rfl, rfl, rfl, rfl, rfl⟩

theorem touches_anchor (c : CrossZoneState) (id : Str) (committee : Option (Bytes32 × UInt32)) :
    Touches id c (anchor c id committee) := by
  cases committee with
  | none => exact .refl id c
  | some committee =>
    unfold anchor CrossZoneState.anchorDestCommittee
    dsimp only
    cases c.pending.lookup id with
    | none => exact .refl id c
    | some t => exact .of_insert rfl

theorem lookup_anchor (hlookup : c.pending.lookup id = some t)
    (committee : Option (Bytes32 × UInt32)) :
    ∃ u, (anchor c id committee).pending.lookup id = some u ∧ SameSeal t u := by
  cases committee with
  | none => exact ⟨t, hlookup, .refl t⟩
  | some committee =>
    unfold anchor CrossZoneState.anchorDestCommittee
    rw [hlookup]
    exact ⟨_, AList.lookup_insert _, rfl, rfl, rfl, rfl, rfl, rfl, rfl⟩

end Touches

/-! ### One transfer -/

section Attach

variable [Sha3] {c : CrossZoneState} {parsed : ParsedEpochSeal}
  {finality : Option SealFinalityCollection} {id : Str} {t u : PendingTransfer}

structure Attached (parsed : ParsedEpochSeal) (t u : PendingTransfer) : Prop where
  status : u.status = t.status
  sender : u.sender = t.sender
  recipient : u.recipient = t.recipient
  proved : verifySealInclusionProof parsed.wireVersion t.lockRecordHash u.merkleProof
    parsed.merkleRoot = true
  empty : u.merkleProof = [] ↔ parsed.recordHashes.length = 1

theorem Attached.congr {u' : PendingTransfer} (h : Attached parsed t u) (hu : SameSeal u u') :
    Attached parsed t u' where
  status := hu.status.trans h.status
  sender := hu.sender.trans h.sender
  recipient := hu.recipient.trans h.recipient
  proved := hu.merkleProof.symm ▸ h.proved
  empty := hu.merkleProof.symm ▸ h.empty

/-- The path of a covered record verifies, and is empty only if no other record is covered. -/
theorem sealProofFor_spec {leaf : Bytes32} (hmem : leaf ∈ parsed.recordHashes) :
    ∃ p, MerkleTree.sealProofFor parsed.wireVersion parsed.recordHashes leaf = some p ∧
      verifySealInclusionProof parsed.wireVersion leaf
        (p.siblings.map fun n => ⟨n.hash, n.isRight⟩) parsed.merkleRoot = true ∧
      (p.siblings = [] ↔ parsed.recordHashes.length = 1) := by
  obtain ⟨p, hproof, hclimb, hempty⟩ := MerkleTree.proof_spec hmem
    (if foldV2MinWireVersion ≤ parsed.wireVersion then 2 else 1)
  refine ⟨p, hproof, ?_, hempty⟩
  rw [MerkleTree.verifySealInclusionProof_iff, ← parsed.enumerated (List.ne_nil_of_mem hmem),
    List.map_map]
  exact hclimb

/-- An entry touches its own transfer only. -/
theorem touches_attachProof (acc : CrossZoneState × ℕ) (entry : Str × Bytes32 × ZoneId) :
    Touches entry.1 acc.1 (attachProof parsed finality acc entry).1 := by
  unfold attachProof
  dsimp only
  split
  · cases MerkleTree.sealProofFor parsed.wireVersion parsed.recordHashes entry.2.1 with
    | none => exact .refl _ _
    | some p =>
      exact ((touches_setProof _ _ _ _ _).trans (touches_witness _ _ _)).trans (touches_anchor _ _ _)
  · exact .refl _ _

theorem attached_attachProof (finality : Option SealFinalityCollection) (destZone : ZoneId)
    {acc : CrossZoneState × ℕ} (hlookup : acc.1.pending.lookup id = some t) (hlocked : t.status = .locked)
    (hmem : t.lockRecordHash ∈ parsed.recordHashes) :
    ∃ u, (attachProof parsed finality acc (id, t.lockRecordHash, destZone)).1.pending.lookup id =
      some u ∧ Attached parsed t u ∧ u.lockRecordHash = t.lockRecordHash := by
  obtain ⟨p, hproof, hproved, hempty⟩ := sealProofFor_spec hmem
  unfold attachProof
  dsimp only
  rw [if_pos hmem, hproof]
  dsimp only
  obtain ⟨u₁, hlookup₁, hsame₁⟩ := lookup_witness (lookup_setProof hlookup hlocked) finality
  obtain ⟨u₂, hlookup₂, hsame₂⟩ := lookup_anchor hlookup₁
    (parsed.xzoneDestFinalityCommittees.bind fun m => m.lookup destZone.path)
  refine ⟨u₂, hlookup₂, Attached.congr (Attached.congr ⟨?_, ?_, ?_, hproved, ?_⟩ hsame₁) hsame₂, ?_⟩
  · rfl
  · rfl
  · rfl
  · exact List.map_eq_nil_iff.trans hempty
  · exact hsame₂.lockRecordHash.trans hsame₁.lockRecordHash

/-! ### All transfers -/

theorem lookup_attachProofs_of_notMem (parsed : ParsedEpochSeal)
    (finality : Option SealFinalityCollection) {entries : List (Str × Bytes32 × ZoneId)}
    (h : ∀ e ∈ entries, e.1 ≠ id) (acc : CrossZoneState × ℕ) :
    (entries.foldl (attachProof parsed finality) acc).1.pending.lookup id =
      acc.1.pending.lookup id := by
  induction entries generalizing acc with
  | nil => rfl
  | cons e entries ih =>
    refine (ih (fun e' he' => h e' (List.mem_cons_of_mem _ he')) _).trans ?_
    exact touches_attachProof acc e id (h e List.mem_cons_self).symm

theorem attached_attachProofs (finality : Option SealFinalityCollection)
    {entries : List (Str × Bytes32 × ZoneId)}
    (hentries : ∀ e ∈ entries, e.1 = id → e.2.1 = t.lockRecordHash)
    (hmem : t.lockRecordHash ∈ parsed.recordHashes) (hlocked : t.status = .locked)
    (acc : CrossZoneState × ℕ) (hlookup : acc.1.pending.lookup id = some u)
    (hhash : u.lockRecordHash = t.lockRecordHash)
    (hstart : u = t ∧ (∃ e ∈ entries, e.1 = id) ∨ Attached parsed t u) :
    ∃ u', (entries.foldl (attachProof parsed finality) acc).1.pending.lookup id = some u' ∧
      Attached parsed t u' := by
  induction entries generalizing acc u with
  | nil =>
    obtain ⟨-, e, he, -⟩ | hattached := hstart
    · exact absurd he List.not_mem_nil
    · exact ⟨u, hlookup, hattached⟩
  | cons e entries ih =>
    have hrest : ∀ e ∈ entries, e.1 = id → e.2.1 = t.lockRecordHash := fun e' he' =>
      hentries e' (List.mem_cons_of_mem _ he')
    have hkeeps : u.status = t.status ∧ u.sender = t.sender ∧ u.recipient = t.recipient := by
      obtain ⟨rfl, -⟩ | hattached := hstart
      · exact ⟨rfl, rfl, rfl⟩
      · exact ⟨hattached.status, hattached.sender, hattached.recipient⟩
    by_cases he : e.1 = id
    · obtain ⟨eid, hash, destZone⟩ := e
      obtain rfl : eid = id := he
      obtain rfl : hash = u.lockRecordHash :=
        (hentries _ List.mem_cons_self rfl).trans hhash.symm
      obtain ⟨v, hv, hattached, hvhash⟩ := attached_attachProof finality destZone hlookup
        (hkeeps.1.trans hlocked) (hhash.symm ▸ hmem)
      refine ih hrest _ hv (hvhash.trans hhash) (Or.inr ?_)
      exact ⟨hattached.status.trans hkeeps.1, hattached.sender.trans hkeeps.2.1,
        hattached.recipient.trans hkeeps.2.2, hhash ▸ hattached.proved, hattached.empty⟩
    · have hsame : (attachProof parsed finality acc e).1.pending.lookup id = some u :=
        (touches_attachProof acc e id (Ne.symm he)).trans hlookup
      refine ih hrest _ hsame hhash (hstart.imp_left fun ⟨heq, e', he', hid⟩ => ⟨heq, ?_⟩)
      rcases List.mem_cons.mp he' with rfl | he'
      · exact absurd hid he
      · exact ⟨e', he', hid⟩

omit [Sha3] in
theorem mem_transfersToProof {hashes : List Bytes32} {e : Str × Bytes32 × ZoneId} :
    e ∈ transfersToProof c hashes ↔ ∃ t, (∃ h ∈ hashes, c.Holds h e.1) ∧
      c.pending.lookup e.1 = some t ∧ (t.status = .locked ∧ t.merkleProof = []) ∧
      e.2 = (t.lockRecordHash, t.destZone) := by
  unfold transfersToProof CrossZoneState.Holds
  rw [List.mem_flatMap]
  simp only [List.mem_filterMap]
  constructor
  · rintro ⟨h, hh, id, hid, he⟩
    cases hlookup : c.pending.lookup id with
    | none =>
      rw [hlookup] at he
      cases he
    | some t =>
      rw [hlookup] at he
      dsimp only at he
      split at he
      · next hneeds =>
        cases he
        exact ⟨t, ⟨h, hh, hid⟩, hlookup, hneeds, rfl⟩
      · cases he
  · rintro ⟨t, ⟨h, hh, hid⟩, hlookup, hneeds, he⟩
    refine ⟨h, hh, e.1, hid, ?_⟩
    rw [hlookup]
    dsimp only
    rw [if_pos hneeds, ← he]

end Attach

/-! ### Sealed or not -/

section Gates

variable {c : CrossZoneState} {id : Str} {t : PendingTransfer}

/-- A transfer that is given back at the word of a party is unsealed. -/
theorem unsealed_of_refundUnsealed {caller : Str} {owner : PendingTransfer → Str}
    {verb callerRole ownerRole sealedRefusal : String}
    {result : (Str × Str × ℕ) × CrossZoneState} (hlookup : c.pending.lookup id = some t)
    (h : c.refundUnsealed id caller owner verb callerRole ownerRole sealedRefusal = .ok result) :
    t.merkleProof = [] := by
  obtain ⟨t', hfind, h⟩ := Tx.bind_eq_ok.mp h
  obtain ⟨_, -, h⟩ := Tx.bind_eq_ok.mp h
  cases hlookup.symm.trans (CrossZoneState.find_ok hfind)
  split at h
  · cases h
  split at h
  · cases h
  next hproof => exact not_not.mp hproof

/-- The sender of an unsealed transfer may cancel it. -/
theorem cancelTransfer_of_unsealed (hlookup : c.pending.lookup id = some t)
    (hlocked : t.status = .locked) (hproof : t.merkleProof = []) :
    ∃ result, c.cancelTransfer id t.sender = .ok result := by
  unfold CrossZoneState.cancelTransfer CrossZoneState.refundUnsealed CrossZoneState.find
  rw [hlookup]
  unfold CrossZoneState.requireLocked
  dsimp only [bind, Except.bind]
  rw [if_pos hlocked]
  dsimp only
  rw [if_neg (not_not.mpr rfl), if_neg (not_not.mpr hproof)]
  exact ⟨_, rfl⟩

/-- A batch of refunds does not touch a sealed transfer. -/
theorem lookup_applyRefundBatch (hlookup : c.pending.lookup id = some t)
    (hproof : t.merkleProof ≠ []) (batch : XZoneRefundBatch) :
    (c.applyRefundBatch batch).1.pending.lookup id = some t := by
  unfold CrossZoneState.applyRefundBatch
  generalize hacc : (c, ([] : List (Str × ℕ))) = acc
  have hlookup : acc.1.pending.lookup id = some t := hacc ▸ hlookup
  clear hacc
  induction batch.refunds generalizing acc with
  | nil => exact hlookup
  | cons entry entries ih =>
    refine ih _ ?_
    unfold CrossZoneState.refundEntry
    cases hentry : acc.1.pending.lookup entry.1 with
    | none => exact hlookup
    | some t' =>
      dsimp only
      split
      · next heligible =>
        rw [CrossZoneState.unindexNeedsProof_pending]
        refine (AList.lookup_insert_ne ?_).trans hlookup
        rintro rfl
        cases hlookup.symm.trans hentry
        exact hproof (of_decide_eq_true heligible.2)
      · exact hlookup

theorem ledgerError_eq_missingProof {m : Message} (h : ledgerError m = missingProof id) :
    m = [.text "transfer ", .str id,
      .text " lock not yet committed to epoch seal (no merkle proof)"] := by
  have hprints : missingProof id = .err (.ledger [.text "transfer ", .str id,
      .text " lock not yet committed to epoch seal (no merkle proof)"]) := rfl
  rw [hprints] at h
  unfold ledgerError fail at h
  split at h
  · cases h
    rfl
  · cases h

/-- What else stands against a claim is told apart by its text. -/
theorem unsealed_of_claimFault [Sha3] [Dilithium] {claimer : Str} {timestamp : F64} {m : Message}
    (h : CrossZoneState.claimFault t id claimer timestamp = some m)
    (hmissing : ledgerError m = missingProof id) : t.merkleProof = [] := by
  have hm := ledgerError_eq_missingProof hmissing
  unfold CrossZoneState.claimFault at h
  split at h
  · cases h
    exact absurd hm (by simp)
  split at h
  · cases h
    exact absurd hm (by simp)
  split at h
  · next hproof => exact hproof
  split at h
  · cases h
    exact absurd hm (by simp)
  split at h
  · cases h
    exact absurd hm (by simp)
  · cases h

/-- Only a claim of an unsealed transfer is refused for lack of a proof. -/
theorem unsealed_of_missingProof [Sha3] [Dilithium] {claimer claimRecordId : Str} {timestamp : F64}
    (hlookup : c.pending.lookup id = some t) (hlocked : t.status = .locked)
    (h : c.claimTransfer id claimer claimRecordId timestamp = .error (missingProof id)) :
    t.merkleProof = [] := by
  unfold CrossZoneState.claimTransfer CrossZoneState.find CrossZoneState.requireLocked at h
  rw [hlookup] at h
  dsimp only [bind, Except.bind] at h
  rw [if_pos hlocked] at h
  dsimp only at h
  cases hm : CrossZoneState.claimFault t id claimer timestamp with
  | none =>
    rw [hm] at h
    cases h
  | some m =>
    rw [hm] at h
    exact unsealed_of_claimFault hm (Except.error.inj h)

end Gates

/-! ### The transfers of a seal -/

section Main

variable [Sha3] [Dilithium]

/-- A transfer with a path is taken for sealed. -/
theorem treatedAsSealed_of_path {c : CrossZoneState} {parsed : ParsedEpochSeal} {id : Str}
    {t u : PendingTransfer} (hlookup : c.pending.lookup id = some u) (hlocked : u.status = .locked)
    (hpath : u.merkleProof ≠ []) (hproved : verifySealInclusionProof parsed.wireVersion
      t.lockRecordHash u.merkleProof parsed.merkleRoot = true) : TreatedAsSealed parsed c id t where
  proved := ⟨u, hlookup, hproved⟩
  notCancelled _ h := hpath (unsealed_of_refundUnsealed hlookup h)
  notRejected _ h := hpath (unsealed_of_refundUnsealed hlookup h)
  notRefunded batch := by
    rw [lookup_applyRefundBatch hlookup hpath batch]
    exact decide_eq_true hlocked
  claimable _ _ _ h := hpath (unsealed_of_missingProof hlookup hlocked h)

/-- A transfer without a path is not: its sender may cancel it. -/
theorem not_treatedAsSealed {c : CrossZoneState} {parsed : ParsedEpochSeal} {id : Str}
    {t u : PendingTransfer} (hlookup : c.pending.lookup id = some u) (hlocked : u.status = .locked)
    (hsender : u.sender = t.sender) (hpath : u.merkleProof = []) :
    ¬ TreatedAsSealed parsed c id t := by
  intro h
  obtain ⟨result, hcancel⟩ := cancelTransfer_of_unsealed hlookup hlocked hpath
  rw [hsender] at hcancel
  exact h.notCancelled result hcancel

/-- A locked transfer whose record a seal covers is taken for sealed afterwards if and only
if it waited for a proof, known to the index, and the seal covers another record besides; or
it had a path to the root of this seal before. -/
theorem treatedAsSealed_iff (c : CrossZoneState) (parsed : ParsedEpochSeal)
    (finality : Option SealFinalityCollection) (id : Str) (t : PendingTransfer)
    (hlookup : c.pending.lookup id = some t) (hlocked : t.status = .locked)
    (hmem : t.lockRecordHash ∈ parsed.recordHashes) :
    TreatedAsSealed parsed (attachXzoneProofsFromSealWithFinality c parsed finality).1 id t ↔
      (t.merkleProof = [] ∧ (∃ h ∈ parsed.recordHashes, c.Holds h id) ∧
          2 ≤ parsed.recordHashes.length) ∨
        (t.merkleProof ≠ [] ∧ verifySealInclusionProof parsed.wireVersion t.lockRecordHash
          t.merkleProof parsed.merkleRoot = true) := by
  unfold attachXzoneProofsFromSealWithFinality
  rw [if_neg (List.ne_nil_of_mem hmem)]
  have hpos := List.length_pos_of_mem hmem
  by_cases hwaits : t.merkleProof = [] ∧ ∃ h ∈ parsed.recordHashes, c.Holds h id
  · -- the path of the seal is attached, and decides
    have hentries : ∀ e ∈ transfersToProof c parsed.recordHashes, e.1 = id →
        e.2.1 = t.lockRecordHash := by
      rintro e he rfl
      obtain ⟨t', -, hlookup', -, heq⟩ := mem_transfersToProof.mp he
      cases hlookup.symm.trans hlookup'
      rw [heq]
    have hsome : ∃ e ∈ transfersToProof c parsed.recordHashes, e.1 = id :=
      ⟨(id, t.lockRecordHash, t.destZone),
        mem_transfersToProof.mpr ⟨t, hwaits.2, hlookup, ⟨hlocked, hwaits.1⟩, rfl⟩, rfl⟩
    obtain ⟨u, hu, hattached⟩ := attached_attachProofs finality hentries hmem hlocked
      (c, 0) hlookup rfl (Or.inl ⟨rfl, hsome⟩)
    have hulocked : u.status = .locked := hattached.status.trans hlocked
    rw [or_iff_left fun h => h.1 hwaits.1, and_iff_right hwaits.1, and_iff_right hwaits.2]
    by_cases hone : parsed.recordHashes.length = 1
    · refine iff_of_false ?_ (by omega)
      exact not_treatedAsSealed hu hulocked hattached.sender (hattached.empty.mpr hone)
    · refine iff_of_true ?_ (by omega)
      exact treatedAsSealed_of_path hu hulocked (fun h => hone (hattached.empty.mp h))
        hattached.proved
  · -- the transfer is left as it was
    have hother : ∀ e ∈ transfersToProof c parsed.recordHashes, e.1 ≠ id := by
      rintro e he rfl
      obtain ⟨t', hholds, hlookup', hneeds, -⟩ := mem_transfersToProof.mp he
      cases hlookup.symm.trans hlookup'
      exact hwaits ⟨hneeds.2, hholds⟩
    have hkept := lookup_attachProofs_of_notMem parsed finality hother (c, 0)
    have hkept' := hkept.trans hlookup
    rw [or_iff_right fun h => hwaits ⟨h.1, h.2.1⟩]
    by_cases hpath : t.merkleProof = []
    · exact iff_of_false (not_treatedAsSealed hkept' hlocked rfl hpath) fun h => h.1 hpath
    · rw [and_iff_right hpath]
      refine ⟨fun h => ?_, treatedAsSealed_of_path hkept' hlocked hpath⟩
      obtain ⟨u, hu, hproved⟩ := h.proved
      cases hkept'.symm.trans hu
      exact hproved

end Main

section Fixed

attribute [local instance] Smt.guardedSha3 CrossZoneState.unsigned Iteration.stored

def recordHash (b : UInt8) : Bytes32 := ⟨List.replicate 32 b, List.length_replicate⟩

def lockedOnce : CrossZoneState :=
  CrossZoneState.new.after (.lock (.text "lock") (.text "sender") (.text "recipient") 5 ⟨[1]⟩ ⟨[2]⟩
    F64.zero (recordHash 1))

def sealOver (hashes : List Bytes32) : ParsedEpochSeal where
  merkleRoot := MerkleTree.sealRootFor 7 hashes
  recordHashes := hashes
  wireVersion := 7
  xzoneDestFinalityCommittees := none
  enumerated _ := rfl

def lockedTransfer : PendingTransfer where
  transferId := .text "lock"
  sender := .text "sender"
  recipient := .text "recipient"
  amount := 5
  sourceZone := ⟨[1]⟩
  destZone := ⟨[2]⟩
  lockedAt := F64.zero
  expiresAt := F64.zero.add claimTimeoutSecs
  status := .locked
  merkleProof := []
  sourceSealWireVersion := 0
  lockRecordHash := recordHash 1
  sourceMerkleRoot := .zero
  sourceSealSigners := []
  sourceCommitteeHash := .zero
  sourceSealEpoch := 0
  sourceCommitteeSize := 0
  destFinalityCommittee := none
  claimRecordId := none

theorem lookup_lockedOnce : lockedOnce.pending.lookup (.text "lock") = some lockedTransfer := rfl

/-- A seal over two records seals the transfer. -/
theorem treatedAsSealed_pair : TreatedAsSealed (sealOver [recordHash 1, recordHash 2])
    (attachXzoneProofsFromSealWithFinality lockedOnce (sealOver [recordHash 1, recordHash 2])
      none).1 (.text "lock") lockedTransfer := by
  have hindexed : Str.text "lock" ∈ Table.getD lockedOnce.needsProofIndex (recordHash 1) [] := by
    decide +kernel
  refine (treatedAsSealed_iff lockedOnce (sealOver [recordHash 1, recordHash 2]) none (.text "lock")
    lockedTransfer lookup_lockedOnce rfl List.mem_cons_self).mpr (Or.inl ⟨rfl, ?_, le_rfl⟩)
  exact ⟨recordHash 1, List.mem_cons_self, hindexed⟩

/-- A seal over the record of the lock alone does not: the transfer may be cancelled and
rejected, and a claim is refused for lack of a proof. -/
theorem sealed_alone_given_back :
    let c := (attachXzoneProofsFromSealWithFinality lockedOnce (sealOver [recordHash 1]) none).1
    lockedOnce.pending.lookup (.text "lock") = some lockedTransfer ∧
      (attachXzoneProofsFromSealWithFinality lockedOnce (sealOver [recordHash 1]) none).2 = 1 ∧
      (c.cancelTransfer (.text "lock") (.text "sender")).isOk = true ∧
      (c.rejectTransfer (.text "lock") (.text "recipient")).isOk = true ∧
      (match c.claimTransfer (.text "lock") (.text "recipient") (.text "claim") F64.zero with
        | .error e => some e
        | .ok _ => none) = some (missingProof (.text "lock")) := by
  refine ⟨lookup_lockedOnce, ?_, ?_, ?_, ?_⟩ <;> decide +kernel

end Fixed

end ElaraMesh.Seal
