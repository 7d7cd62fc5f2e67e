import ElaraMesh.Ledger.Records
import ElaraMesh.Ledger.Transfers

/-!
# The transfers that wait for a proof

The transfers that are locked and have no inclusion proof yet are indexed by the hash of
their lock record, so that a seal finds them.  The index is kept up by the operations that
enter, seal and refund a transfer, and built anew when a snapshot is restored.  A proof that
is attached but empty, as that of a seal over a single record, takes the transfer out of the
index all the same.

## Main results

* `index_exact_iff` — the index is exact in every state of a run if and only if no operation
  of it attaches an empty proof.
-/

namespace ElaraMesh.Ledger

open Record (Str ZoneId)
open Smt (Sha3 Bytes32)

/-- Is the transfer locked and without a proof? -/
def PendingTransfer.needsProof (t : PendingTransfer) : Bool :=
  t.status = .locked ∧ t.merkleProof = []

namespace CrossZoneState

/-- Derive the counts and the index from the transfers. -/
def recountStatus [Iteration] (c : CrossZoneState) : CrossZoneState :=
  let transfers := (Iteration.walk c.pending).map Prod.snd
  { c with
    lockedCount := transfers.countP fun t => t.status = .locked
    claimedCount := transfers.countP fun t => t.status = .claimed
    refundedCount := transfers.countP fun t => t.status = .refunded
    abortedCount := transfers.countP fun t => t.status = .aborted
    needsProofIndex := (transfers.filter PendingTransfer.needsProof).foldl
      (fun index t => index.upsert t.lockRecordHash [] fun ids => ids ++ [t.transferId]) ∅ }

/-- Every transfer is kept under its name. -/
def Keyed (c : CrossZoneState) : Prop :=
  ∀ id t, c.pending.lookup id = some t → t.transferId = id

end CrossZoneState

/-- What was written of a state; the index is not written. -/
structure CrossZoneSnapshot where
  state : CrossZoneState
  keyed : state.Keyed

def CrossZoneSnapshot.restore [Iteration] (snapshot : CrossZoneSnapshot) : CrossZoneState :=
  { snapshot.state with needsProofIndex := ∅ }.recountStatus

/-! ### Operations -/

inductive CrossZoneEvent where
  | lock (transferId sender recipient : Str) (amount : ℕ) (sourceZone destZone : ZoneId)
      (timestamp : F64) (lockRecordHash : Bytes32) : CrossZoneEvent
  | setProof (transferId : Str) (proof : List ProofSibling) (merkleRoot : Bytes32)
      (sealWireVersion : UInt16) : CrossZoneEvent
  | setFinalityWitnesses (transferId : Str) (signers : List SealFinalityWitness)
      (committeeHash : Bytes32) (sealEpoch : UInt64) (committeeSize : UInt32) : CrossZoneEvent
  | anchorDestCommittee (transferId : Str) (anchor : Bytes32 × UInt32) : CrossZoneEvent
  | claim (transferId claimer claimRecordId : Str) (timestamp : F64) : CrossZoneEvent
  | cancel (transferId canceller : Str) : CrossZoneEvent
  | reject (transferId rejector : Str) : CrossZoneEvent
  | abort (transferId : Str) : CrossZoneEvent
  | refundBatch (batch : XZoneRefundBatch) : CrossZoneEvent
  | reapBatch (batch : XZoneRefundBatch) : CrossZoneEvent
  | pruneCompleted (cutoff : F64) : CrossZoneEvent
  | restore (snapshot : CrossZoneSnapshot) : CrossZoneEvent

namespace CrossZoneState

/-- What is refused changes nothing. -/
def orKeep (c : CrossZoneState) : Except Stop CrossZoneState → CrossZoneState
  | .ok c' => c'
  | .error _ => c

def after [Sha3] [Dilithium] [Iteration] (c : CrossZoneState) : CrossZoneEvent → CrossZoneState
  | .lock transferId sender recipient amount sourceZone destZone timestamp lockRecordHash =>
    c.orKeep (c.lockTransfer transferId sender recipient amount sourceZone destZone timestamp
      lockRecordHash)
  | .setProof transferId proof merkleRoot sealWireVersion =>
    c.orKeep (c.setProof transferId proof merkleRoot sealWireVersion)
  | .setFinalityWitnesses transferId signers committeeHash sealEpoch committeeSize =>
    c.orKeep (c.setFinalityWitnesses transferId signers committeeHash sealEpoch committeeSize)
  | .anchorDestCommittee transferId anchor => c.anchorDestCommittee transferId anchor
  | .claim transferId claimer claimRecordId timestamp =>
    c.orKeep ((c.claimTransfer transferId claimer claimRecordId timestamp).map Prod.snd)
  | .cancel transferId canceller => c.orKeep ((c.cancelTransfer transferId canceller).map Prod.snd)
  | .reject transferId rejector => c.orKeep ((c.rejectTransfer transferId rejector).map Prod.snd)
  | .abort transferId => c.orKeep ((c.abortTransfer transferId).map Prod.snd)
  | .refundBatch batch => (c.applyRefundBatch batch).1
  | .reapBatch batch => (c.applyReapBatch batch).1
  | .pruneCompleted cutoff => (c.pruneCompleted cutoff).2
  | .restore snapshot => snapshot.restore

/-! ### The index -/

/-- The index holds the transfer under the hash. -/
def Holds (c : CrossZoneState) (hash : Bytes32) (id : Str) : Prop :=
  id ∈ Table.getD c.needsProofIndex hash []

/-- The index holds a transfer if and only if it is locked and has no proof. -/
def Exact (c : CrossZoneState) : Prop :=
  ∀ id, (∃ hash, c.Holds hash id) ↔
    ∃ t, c.pending.lookup id = some t ∧ t.status = .locked ∧ t.merkleProof = []

/-- The index holds the transfers that wait for a proof under the hashes of their lock
records. -/
structure ProofIndexed (c : CrossZoneState) : Prop where
  keyed : c.Keyed
  index : ∀ hash id, c.Holds hash id ↔
    ∃ t, c.pending.lookup id = some t ∧ t.lockRecordHash = hash ∧ t.needsProof

/-- The operation attaches an empty proof to a locked transfer. -/
def AttachesNothing (c : CrossZoneState) : CrossZoneEvent → Prop
  | .setProof transferId proof _ _ =>
    proof = [] ∧ ∃ t, c.pending.lookup transferId = some t ∧ t.status = .locked
  | _ => False

/-! ### Entering and taking out -/

section Index

variable {c c' : CrossZoneState} {id : Str} {t t' : PendingTransfer}

theorem holds_indexNeedsProof (c : CrossZoneState) (hash : Bytes32) (id : Str) (hash' : Bytes32)
    (id' : Str) : (c.indexNeedsProof hash id).Holds hash' id' ↔
      c.Holds hash' id' ∨ hash' = hash ∧ id' = id := by
  unfold Holds indexNeedsProof
  dsimp only
  rw [Table.getD_insert]
  by_cases hhash : hash' = hash
  · subst hhash
    rw [if_pos rfl]
    split
    · next hmem =>
      refine (or_iff_left_of_imp ?_).symm
      rintro ⟨-, rfl⟩
      exact hmem
    · rw [List.mem_append, List.mem_singleton, and_iff_right rfl]
  · rw [if_neg hhash, or_iff_left fun h => hhash h.1]

theorem holds_unindexNeedsProof (c : CrossZoneState) (hash : Bytes32) (id : Str) (hash' : Bytes32)
    (id' : Str) : (c.unindexNeedsProof hash id).Holds hash' id' ↔
      c.Holds hash' id' ∧ ¬ (hash' = hash ∧ id' = id) := by
  unfold Holds unindexNeedsProof
  by_cases hhash : hash' = hash
  · subst hhash
    rw [and_iff_right (a := hash' = hash') rfl]
    cases hlookup : c.needsProofIndex.lookup hash' with
    | none =>
      have hnone : Table.getD c.needsProofIndex hash' [] = [] := by
        unfold Table.getD
        rw [hlookup]
        rfl
      rw [hnone]
      exact iff_of_false List.not_mem_nil fun h => List.not_mem_nil h.1
    | some ids =>
      have hids : Table.getD c.needsProofIndex hash' [] = ids := by
        unfold Table.getD
        rw [hlookup]
        rfl
      have hafter : Table.getD (if ids.filter (· ≠ id) = [] then c.needsProofIndex.erase hash'
          else c.needsProofIndex.insert hash' (ids.filter (· ≠ id))) hash' [] =
            ids.filter (· ≠ id) := by
        split
        · next hempty =>
          unfold Table.getD
          rw [AList.lookup_erase, hempty]
          rfl
        · rw [Table.getD_insert, if_pos rfl]
      dsimp only
      rw [hafter, hids, List.mem_filter, decide_eq_true_iff]
  · rw [and_iff_left fun h => hhash h.1]
    cases hlookup : c.needsProofIndex.lookup hash with
    | none => exact Iff.rfl
    | some ids =>
      dsimp only
      unfold Table.getD
      split
      · rw [AList.lookup_erase_ne hhash]
      · rw [AList.lookup_insert_ne hhash]

/-! ### What an operation does to the index -/

namespace ProofIndexed

theorem new : CrossZoneState.new.ProofIndexed where
  keyed _ _ h := nomatch h
  index _ _ := iff_of_false List.not_mem_nil fun ⟨_, h, _⟩ => nomatch h

theorem exact (h : c.ProofIndexed) : c.Exact := by
  intro id
  constructor
  · rintro ⟨hash, hholds⟩
    obtain ⟨t, hlookup, -, hneeds⟩ := (h.index hash id).mp hholds
    exact ⟨t, hlookup, of_decide_eq_true hneeds⟩
  · rintro ⟨t, hlookup, hneeds⟩
    exact ⟨t.lockRecordHash, (h.index _ id).mpr ⟨t, hlookup, rfl, decide_eq_true hneeds⟩⟩

theorem holds_iff (h : c.ProofIndexed) (hlookup : c.pending.lookup id = some t) (hash : Bytes32) :
    c.Holds hash id ↔ t.lockRecordHash = hash ∧ t.needsProof := by
  rw [h.index]
  constructor
  · rintro ⟨t', hlookup', ht'⟩
    cases hlookup.symm.trans hlookup'
    exact ht'
  · exact fun ht => ⟨t, hlookup, ht⟩

/-- A transfer is written, and the index says whether it waits for a proof. -/
theorem write (h : c.ProofIndexed) (hid : t'.transferId = id)
    (hpending : c'.pending = c.pending.insert id t')
    (hself : ∀ hash, c'.Holds hash id ↔ t'.lockRecordHash = hash ∧ t'.needsProof)
    (hother : ∀ hash id', id' ≠ id → (c'.Holds hash id' ↔ c.Holds hash id')) :
    c'.ProofIndexed := by
  constructor
  · intro id' u hlookup
    rw [hpending, Table.lookup_insert_eq] at hlookup
    split at hlookup
    · next hid' =>
      cases hlookup
      exact hid.trans hid'.symm
    · exact h.keyed id' u hlookup
  · intro hash id'
    by_cases hid' : id' = id
    · subst hid'
      rw [hself, hpending, AList.lookup_insert]
      constructor
      · exact fun ht' => ⟨t', rfl, ht'⟩
      · rintro ⟨u, hu, ht'⟩
        cases hu
        exact ht'
    · rw [hother hash id' hid', h.index, hpending, AList.lookup_insert_ne hid']

/-- A transfer is written that waits for a proof if and only if it did before. -/
theorem replace {w : PendingTransfer} (h : c.ProofIndexed) (hlookup : c.pending.lookup id = some t)
    (hid : w.transferId = t.transferId) (hhash : w.lockRecordHash = t.lockRecordHash)
    (hneeds : w.needsProof = t.needsProof) (hpending : c'.pending = c.pending.insert id w)
    (hindex : c'.needsProofIndex = c.needsProofIndex) : c'.ProofIndexed := by
  have hholds : ∀ hash id', c'.Holds hash id' ↔ c.Holds hash id' := by
    intro hash id'
    unfold Holds
    rw [hindex]
  refine h.write (hid.trans (h.keyed id t hlookup)) hpending (fun hash => ?_) fun hash id' _ =>
    hholds hash id'
  rw [hholds, h.holds_iff hlookup, hhash, hneeds]

/-- A transfer is written that does not wait for a proof, and is taken out of the index. -/
theorem settle {w : PendingTransfer} (h : c.ProofIndexed) (hlookup : c.pending.lookup id = some t)
    (hid : w.transferId = t.transferId) (hneeds : w.needsProof = false)
    (hpending : c'.pending = c.pending.insert id w)
    (hindex : c'.needsProofIndex = (c.unindexNeedsProof t.lockRecordHash id).needsProofIndex) :
    c'.ProofIndexed := by
  have hholds : ∀ hash id', c'.Holds hash id' ↔
      c.Holds hash id' ∧ ¬ (hash = t.lockRecordHash ∧ id' = id) := by
    intro hash id'
    rw [← holds_unindexNeedsProof]
    unfold Holds
    rw [hindex]
  refine h.write (hid.trans (h.keyed id t hlookup)) hpending (fun hash => ?_)
    fun hash id' hid' => ?_
  · rw [hholds, h.holds_iff hlookup, hneeds]
    refine iff_of_false ?_ (fun hfalse => Bool.false_ne_true hfalse.2)
    rintro ⟨⟨hhash, -⟩, hnot⟩
    exact hnot ⟨hhash.symm, rfl⟩
  · rw [hholds, and_iff_left fun hself => hid' hself.2]

end ProofIndexed

end Index

/-! ### One operation -/

section Operations

variable {c c' : CrossZoneState} {id : Str} {t t' : PendingTransfer}

theorem unindexNeedsProof_congr {hash : Bytes32} (h : c'.needsProofIndex = c.needsProofIndex) :
    (c'.unindexNeedsProof hash id).needsProofIndex =
      (c.unindexNeedsProof hash id).needsProofIndex := by
  unfold unindexNeedsProof
  rw [h]
  cases c.needsProofIndex.lookup hash with
  | none => exact h
  | some ids => rfl

theorem needsProof_eq_false (h : t.status ≠ .locked) : t.needsProof = false :=
  decide_eq_false fun hneeds => h hneeds.1

theorem needsProof_of_sealed (h : t.merkleProof ≠ []) : t.needsProof = false :=
  decide_eq_false fun hneeds => h hneeds.2

theorem proofIndexed_lock {sender recipient : Str} {amount : ℕ} {sourceZone destZone : ZoneId}
    {timestamp : F64} {hash : Bytes32} (hc : c.ProofIndexed)
    (h : c.lockTransfer id sender recipient amount sourceZone destZone timestamp hash = .ok c') :
    c'.ProofIndexed := by
  unfold lockTransfer at h
  split at h
  · cases h
  next hfresh =>
  split at h
  · cases h
  split at h
  · cases h
  obtain rfl := Except.ok.inj h
  have hnone : ∀ hash', ¬ c.Holds hash' id := by
    intro hash' hholds
    obtain ⟨t, hlookup, -⟩ := (hc.index hash' id).mp hholds
    exact hfresh (AList.lookup_isSome.mp (hlookup ▸ rfl))
  refine hc.write ?_ rfl (fun hash' => ?_) fun hash' id' hid' => ?_
  · rfl
  · refine (holds_indexNeedsProof _ hash id hash' id).trans ?_
    refine (or_iff_right (hnone hash')).trans ?_
    exact ⟨fun hself => ⟨hself.1.symm, rfl⟩, fun hself => ⟨hself.1.symm, rfl⟩⟩
  · exact (holds_indexNeedsProof _ hash id hash' id').trans
      (or_iff_left fun hself => hid' hself.2)

def withProof (t : PendingTransfer) (proof : List ProofSibling) (root : Bytes32)
    (version : UInt16) : PendingTransfer :=
  { t with merkleProof := proof, sourceMerkleRoot := root, sourceSealWireVersion := version }

variable {version : UInt16}

theorem setProof_ok {proof : List ProofSibling} {root : Bytes32}
    (h : c.setProof id proof root version = .ok c') :
    ∃ t, c.pending.lookup id = some t ∧ t.status = .locked ∧
      c'.pending = c.pending.insert id (withProof t proof root version) ∧
      c'.needsProofIndex = (c.unindexNeedsProof t.lockRecordHash id).needsProofIndex := by
  obtain ⟨t, hfind, h⟩ := Tx.bind_eq_ok.mp h
  obtain ⟨_, hrequire, h⟩ := Tx.bind_eq_ok.mp h
  obtain rfl := Except.ok.inj h
  exact ⟨t, find_ok hfind, requireLocked_ok hrequire, unindexNeedsProof_pending _ _ _,
    unindexNeedsProof_congr rfl⟩

theorem proofIndexed_setProof {proof : List ProofSibling} {root : Bytes32}
    (hc : c.ProofIndexed) (hproof : proof ≠ []) (h : c.setProof id proof root version = .ok c') :
    c'.ProofIndexed := by
  obtain ⟨t, hlookup, -, hpending, hindex⟩ := setProof_ok h
  refine hc.settle hlookup ?_ ?_ hpending hindex
  · rfl
  · exact needsProof_of_sealed hproof

/-- An empty proof takes the transfer out of the index, although it has none. -/
theorem not_exact_setProof {root : Bytes32} (hc : c.ProofIndexed)
    (h : c.setProof id [] root version = .ok c') : ¬ c'.Exact := by
  intro hexact
  obtain ⟨t, hlookup, hlocked, hpending, hindex⟩ := setProof_ok h
  obtain ⟨hash, hholds⟩ := (hexact id).mpr
    ⟨withProof t [] root version, hpending ▸ AList.lookup_insert _, hlocked, rfl⟩
  have hbefore : (c.unindexNeedsProof t.lockRecordHash id).Holds hash id := by
    unfold Holds at hholds ⊢
    rw [← hindex]
    exact hholds
  obtain ⟨hholds, hnot⟩ := (holds_unindexNeedsProof c t.lockRecordHash id hash id).mp hbefore
  exact hnot ⟨((hc.holds_iff hlookup hash).mp hholds).1.symm, rfl⟩

theorem proofIndexed_setFinalityWitnesses {signers : List SealFinalityWitness}
    {committeeHash : Bytes32} {sealEpoch : UInt64} {committeeSize : UInt32} (hc : c.ProofIndexed)
    (h : c.setFinalityWitnesses id signers committeeHash sealEpoch committeeSize = .ok c') :
    c'.ProofIndexed := by
  obtain ⟨t, hfind, h⟩ := Tx.bind_eq_ok.mp h
  obtain ⟨_, -, h⟩ := Tx.bind_eq_ok.mp h
  obtain rfl := Except.ok.inj h
  refine hc.replace (find_ok hfind) ?_ ?_ ?_ rfl rfl <;> rfl

theorem proofIndexed_anchorDestCommittee (hc : c.ProofIndexed) (anchor : Bytes32 × UInt32) :
    (c.anchorDestCommittee id anchor).ProofIndexed := by
  unfold anchorDestCommittee
  cases hlookup : c.pending.lookup id with
  | none => exact hc
  | some t => refine hc.replace hlookup ?_ ?_ ?_ rfl rfl <;> rfl

/-- A claim needs a proof, so that the transfer is not in the index any more. -/
theorem proofIndexed_claim [Sha3] [Dilithium] {claimer claimRecordId : Str} {timestamp : F64}
    {t' : PendingTransfer} (hc : c.ProofIndexed)
    (h : c.claimTransfer id claimer claimRecordId timestamp = .ok (t', c')) : c'.ProofIndexed := by
  obtain ⟨t, hfind, h⟩ := Tx.bind_eq_ok.mp h
  obtain ⟨_, -, h⟩ := Tx.bind_eq_ok.mp h
  cases hfault : claimFault t id claimer timestamp with
  | some m =>
    rw [hfault] at h
    cases h
  | none =>
    rw [hfault] at h
    obtain ⟨rfl, rfl⟩ := Prod.mk.inj (Except.ok.inj h)
    have hsealed : t.merkleProof ≠ [] := by
      intro hproof
      unfold claimFault at hfault
      rw [if_pos hproof] at hfault
      split at hfault
      · cases hfault
      · split at hfault <;> cases hfault
    refine hc.replace (find_ok hfind) ?_ ?_ ?_ rfl rfl
    · rfl
    · rfl
    · rw [needsProof_of_sealed hsealed]
      exact needsProof_of_sealed hsealed

theorem proofIndexed_refundUnsealed {caller : Str} {owner : PendingTransfer → Str}
    {verb callerRole ownerRole sealedRefusal : String} {result : Str × Str × ℕ}
    (hc : c.ProofIndexed)
    (h : c.refundUnsealed id caller owner verb callerRole ownerRole sealedRefusal =
      .ok (result, c')) : c'.ProofIndexed := by
  obtain ⟨t, hfind, h⟩ := Tx.bind_eq_ok.mp h
  obtain ⟨_, -, h⟩ := Tx.bind_eq_ok.mp h
  split at h
  · cases h
  split at h
  · cases h
  obtain ⟨-, rfl⟩ := Prod.mk.inj (Except.ok.inj h)
  refine hc.settle (w := { t with status := .refunded }) (find_ok hfind) rfl
    (needsProof_eq_false TransferStatus.noConfusion) (unindexNeedsProof_pending _ _ _)
    (unindexNeedsProof_congr rfl)

theorem proofIndexed_abort {result : Str × Str × ℕ} (hc : c.ProofIndexed)
    (h : c.abortTransfer id = .ok (result, c')) : c'.ProofIndexed := by
  obtain ⟨t, hfind, h⟩ := Tx.bind_eq_ok.mp h
  obtain ⟨_, -, h⟩ := Tx.bind_eq_ok.mp h
  split at h
  · cases h
  next hsealed =>
  obtain ⟨-, rfl⟩ := Prod.mk.inj (Except.ok.inj h)
  refine hc.replace (find_ok hfind) ?_ ?_ ?_ rfl rfl
  · rfl
  · rfl
  · rw [needsProof_of_sealed fun hproof => hsealed (Or.inl hproof)]
    exact needsProof_eq_false TransferStatus.noConfusion

/-- The transfers of a batch are refunded one after the other. -/
theorem proofIndexed_refundEntries {eligible : PendingTransfer → Bool}
    {finish : CrossZoneState → PendingTransfer → Str → CrossZoneState}
    (hstep : ∀ (c : CrossZoneState) id t, c.ProofIndexed → c.pending.lookup id = some t →
      eligible t → (finish { c.unlock id { t with status := .refunded } with
        refundedCount := c.refundedCount + 1 } t id).ProofIndexed)
    (entries : List (Str × Str × ℕ)) {acc : CrossZoneState × List (Str × ℕ)}
    (hacc : acc.1.ProofIndexed) :
    (entries.foldl (refundEntry eligible finish) acc).1.ProofIndexed := by
  induction entries generalizing acc with
  | nil => exact hacc
  | cons entry entries ih =>
    refine ih ?_
    unfold refundEntry
    cases hlookup : acc.1.pending.lookup entry.1 with
    | none => exact hacc
    | some t =>
      dsimp only
      split
      · next heligible => exact hstep acc.1 entry.1 t hacc hlookup heligible.2
      · exact hacc

theorem proofIndexed_applyRefundBatch (hc : c.ProofIndexed) (batch : XZoneRefundBatch) :
    (c.applyRefundBatch batch).1.ProofIndexed := by
  refine proofIndexed_refundEntries (fun c id t hc hlookup _ => ?_) batch.refunds hc
  exact hc.settle (w := { t with status := .refunded }) hlookup rfl
    (needsProof_eq_false TransferStatus.noConfusion) (unindexNeedsProof_pending _ _ _)
    (unindexNeedsProof_congr rfl)

theorem proofIndexed_applyReapBatch (hc : c.ProofIndexed) (batch : XZoneRefundBatch) :
    (c.applyReapBatch batch).1.ProofIndexed := by
  refine proofIndexed_refundEntries (fun c id t hc hlookup heligible => ?_) batch.refunds hc
  refine hc.replace (w := { t with status := .refunded }) hlookup rfl rfl ?_ rfl rfl
  rw [needsProof_of_sealed (of_decide_eq_true heligible)]
  exact needsProof_eq_false TransferStatus.noConfusion

/-- What is dropped is not locked. -/
theorem proofIndexed_prune (hc : c.ProofIndexed) (cutoff : F64) :
    (c.pruneCompleted cutoff).2.ProofIndexed := by
  constructor
  · intro id t hlookup
    exact hc.keyed id t ((lookup_prune c cutoff).mp hlookup).1
  · intro hash id
    refine (hc.index hash id).trans (exists_congr fun t => ?_)
    rw [lookup_prune, and_assoc]
    refine and_congr_right fun _ => (and_iff_right_of_imp fun hneeds => ?_).symm
    exact keepsTransfer_of_locked cutoff (of_decide_eq_true hneeds.2).1

theorem proofIndexed_restore [Iteration] (snapshot : CrossZoneSnapshot) :
    snapshot.restore.ProofIndexed := by
  refine ⟨snapshot.keyed, fun hash id => ?_⟩
  refine (Table.mem_foldl_upsert PendingTransfer.lockRecordHash PendingTransfer.transferId _ ∅ hash
    id).trans ?_
  rw [Table.getD_empty, or_iff_right List.not_mem_nil]
  constructor
  · rintro ⟨t, hmem, hhash, rfl⟩
    obtain ⟨hmem, hneeds⟩ := List.mem_filter.mp hmem
    obtain ⟨⟨id, t⟩, hwalk, rfl⟩ := List.mem_map.mp hmem
    have hlookup : snapshot.state.pending.lookup id = some t := Iteration.mem_walk.mp hwalk
    refine ⟨t, ?_, hhash, hneeds⟩
    show snapshot.state.pending.lookup t.transferId = some t
    rw [snapshot.keyed id t hlookup]
    exact hlookup
  · rintro ⟨t, hlookup, hhash, hneeds⟩
    refine ⟨t, List.mem_filter.mpr ⟨?_, hneeds⟩, hhash, snapshot.keyed id t hlookup⟩
    exact List.mem_map.mpr ⟨(id, t), Iteration.mem_walk.mpr hlookup, rfl⟩

end Operations

/-! ### Runs -/

section Runs

variable {c : CrossZoneState}

theorem setProof_of_locked {id : Str} {t : PendingTransfer}
    (hlookup : c.pending.lookup id = some t) (hlocked : t.status = .locked)
    (proof : List ProofSibling) (root : Bytes32) (version : UInt16) :
    ∃ c', c.setProof id proof root version = .ok c' := by
  unfold setProof find
  rw [hlookup]
  unfold requireLocked
  dsimp only [bind, Except.bind]
  rw [if_pos hlocked]
  exact ⟨_, rfl⟩

theorem proofIndexed_orKeep {result : Except Stop CrossZoneState}
    (hc : c.ProofIndexed) (h : ∀ c', result = .ok c' → c'.ProofIndexed) :
    (c.orKeep result).ProofIndexed := by
  cases result with
  | ok c' => exact h c' rfl
  | error e => exact hc

/-- What is left of a result that comes with a state. -/
theorem proofIndexed_orKeep_snd {α : Type}
    {result : Except Stop (α × CrossZoneState)} (hc : c.ProofIndexed)
    (h : ∀ a c', result = .ok (a, c') → c'.ProofIndexed) :
    (c.orKeep (result.map Prod.snd)).ProofIndexed := by
  refine proofIndexed_orKeep hc fun c' hok => ?_
  obtain ⟨⟨a, c₁⟩, hresult, rfl⟩ := Tx.map_eq_ok.mp hok
  exact h a c₁ hresult

variable [Sha3] [Dilithium] [Iteration]

theorem proofIndexed_after (hc : c.ProofIndexed) (e : CrossZoneEvent)
    (h : ¬ c.AttachesNothing e) : (c.after e).ProofIndexed := by
  cases e with
  | lock _ _ _ _ _ _ _ _ => exact proofIndexed_orKeep hc fun _ => proofIndexed_lock hc
  | setProof id proof root version =>
    refine proofIndexed_orKeep hc fun c' hok => proofIndexed_setProof hc ?_ hok
    rintro rfl
    obtain ⟨t, hlookup, hlocked, -⟩ := setProof_ok hok
    exact h ⟨rfl, t, hlookup, hlocked⟩
  | setFinalityWitnesses _ _ _ _ _ =>
    exact proofIndexed_orKeep hc fun _ => proofIndexed_setFinalityWitnesses hc
  | anchorDestCommittee _ anchor => exact proofIndexed_anchorDestCommittee hc anchor
  | claim _ _ _ _ => exact proofIndexed_orKeep_snd hc fun _ _ => proofIndexed_claim hc
  | cancel _ _ => exact proofIndexed_orKeep_snd hc fun _ _ => proofIndexed_refundUnsealed hc
  | reject _ _ => exact proofIndexed_orKeep_snd hc fun _ _ => proofIndexed_refundUnsealed hc
  | abort _ => exact proofIndexed_orKeep_snd hc fun _ _ => proofIndexed_abort hc
  | refundBatch batch => exact proofIndexed_applyRefundBatch hc batch
  | reapBatch batch => exact proofIndexed_applyReapBatch hc batch
  | pruneCompleted cutoff => exact proofIndexed_prune hc cutoff
  | restore snapshot => exact proofIndexed_restore snapshot

theorem not_exact_after (hc : c.ProofIndexed) (e : CrossZoneEvent)
    (h : c.AttachesNothing e) : ¬ (c.after e).Exact := by
  cases e with
  | setProof id proof root version =>
    obtain ⟨rfl, t, hlookup, hlocked⟩ := h
    obtain ⟨c', hok⟩ := setProof_of_locked hlookup hlocked [] root version
    show ¬ (c.orKeep (c.setProof id [] root version)).Exact
    rw [hok]
    exact not_exact_setProof hc hok
  | _ => exact h.elim

/-- The index is exact in every state of a run from the start if and only if no operation of
the run attaches an empty proof to a locked transfer. -/
theorem index_exact_iff (events : List CrossZoneEvent) :
    (∀ before, before <+: events → (before.foldl after new).Exact) ↔
      ∀ before e, before ++ [e] <+: events → ¬ (before.foldl after new).AttachesNothing e :=
  Runs.forall_prefix_iff_of (I := ProofIndexed) (P := Exact)
    (C := fun c e => ¬ c.AttachesNothing e) (fun _ e hc h => proofIndexed_after hc e h)
    (fun _ hc => hc.exact) (fun _ e hc hexact h => not_exact_after hc e h hexact) .new events

end Runs

section Fixed

/-- No signature verifies. -/
@[reducible] def unsigned : Dilithium := ⟨fun _ _ _ => false⟩

attribute [local instance] Smt.guardedSha3 unsigned Iteration.stored

/-- A transfer is locked, and sealed by a seal over its record alone. -/
def sealedAlone : List CrossZoneEvent :=
  [.lock (.text "lock") (.text "sender") (.text "recipient") 5 ⟨[1]⟩ ⟨[2]⟩ F64.zero
      (.filled 1 1),
    .setProof (.text "lock") [] (.filled 1 1) 7]

/-- The transfer still waits for a proof, and is not in the index. -/
theorem index_loses_sealedAlone :
    ((sealedAlone.foldl after new).pending.lookup (.text "lock")).any
        PendingTransfer.needsProof = true ∧
      (sealedAlone.foldl after new).needsProofIndex.entries = [] ∧
      ¬ (sealedAlone.foldl after new).Exact := by
  have hwaits : ((sealedAlone.foldl after new).pending.lookup (.text "lock")).any
      PendingTransfer.needsProof = true := by decide +kernel
  have hempty : (sealedAlone.foldl after new).needsProofIndex.entries = [] := by decide +kernel
  refine ⟨hwaits, hempty, fun hexact => ?_⟩
  obtain ⟨t, hlookup, hneeds⟩ := (Option.any_eq_true _ _).mp hwaits
  obtain ⟨hash, hholds⟩ := (hexact (.text "lock")).mpr ⟨t, hlookup, of_decide_eq_true hneeds⟩
  have hindex : (sealedAlone.foldl after new).needsProofIndex = ∅ := AList.ext hempty
  unfold Holds at hholds
  rw [hindex] at hholds
  exact List.not_mem_nil hholds

end Fixed

end CrossZoneState

end ElaraMesh.Ledger
