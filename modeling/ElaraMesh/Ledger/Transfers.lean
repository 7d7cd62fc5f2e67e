import ElaraMesh.Ledger.CrossZone

/-!
# The life of a transfer between zones

A transfer is locked, ends once, and may be dropped when it has ended.  Whoever ends it
finds it locked and keeps its parties and its amount; this is all the functions that end
transfers have in common, and all that is used of them.
-/

namespace ElaraMesh.Ledger

open Record (Str)
open Smt (Bytes32)

namespace CrossZoneState

/-! ### The functions that end transfers -/

section Functions

variable {c c' : CrossZoneState} {id : Str}

theorem find_ok {missing : String} {t : PendingTransfer} (h : c.find id missing = .ok t) :
    c.pending.lookup id = some t := by
  unfold find at h
  cases hlookup : c.pending.lookup id with
  | none =>
    rw [hlookup] at h
    cases h
  | some u =>
    rw [hlookup] at h
    exact congrArg some (Except.ok.inj h)

theorem requireLocked_ok {t : PendingTransfer} {refusal : String} {u : Unit}
    (h : requireLocked t id refusal = .ok u) : t.status = .locked := by
  unfold requireLocked at h
  by_contra hne
  rw [if_neg hne] at h
  cases h

@[simp] theorem unindexNeedsProof_pending (c : CrossZoneState) (hash : Bytes32) (id : Str) :
    (c.unindexNeedsProof hash id).pending = c.pending := by
  unfold unindexNeedsProof
  split <;> rfl

end Functions

/-! ### Dropping transfers -/

section Prune

variable (c : CrossZoneState) (cutoff : F64)

theorem lookup_prune {id : Str} {t : PendingTransfer} :
    (c.pruneCompleted cutoff).2.pending.lookup id = some t ↔
      c.pending.lookup id = some t ∧ keepsTransfer cutoff t :=
  Table.lookup_retain

theorem keepsTransfer_of_locked {t : PendingTransfer} (h : t.status = .locked) :
    keepsTransfer cutoff t := decide_eq_true (Or.inl h)

end Prune

/-! ### Batches that come twice -/

section Batches

variable {eligible : PendingTransfer → Bool}
  {finish : CrossZoneState → PendingTransfer → Str → CrossZoneState}
  {acc : CrossZoneState × List (Str × ℕ)} {entry : Str × Str × ℕ}

/-- No batch refunds the transfer. -/
def Closed (eligible : PendingTransfer → Bool) (c : CrossZoneState) (id : Str) : Prop :=
  ∀ t, c.pending.lookup id = some t → ¬ (t.status = .locked ∧ eligible t)

theorem refundEntry_of_closed (h : Closed eligible acc.1 entry.1) :
    refundEntry eligible finish acc entry = acc := by
  unfold refundEntry
  split
  · rfl
  · next t hlookup => exact if_neg (h t hlookup)

variable (hfinish : ∀ c t id, (finish c t id).pending = c.pending)
include hfinish

theorem closed_refundEntry {id : Str} (h : Closed eligible acc.1 id ∨ id = entry.1) :
    Closed eligible (refundEntry eligible finish acc entry).1 id := by
  by_cases hdone : Closed eligible acc.1 entry.1
  · rw [refundEntry_of_closed hdone]
    exact h.elim (fun h => h) fun heq => heq ▸ hdone
  · simp only [Closed, not_forall, not_not] at hdone
    obtain ⟨t, hlookup, hopen⟩ := hdone
    intro u hu
    simp only [refundEntry, hlookup, if_pos hopen, hfinish, unlock, Table.lookup_insert_eq] at hu
    split at hu
    · cases hu
      exact fun h => TransferStatus.noConfusion h.1
    · next hne => exact h.resolve_right hne u hu

theorem closed_refunds {id : Str} (entries : List (Str × Str × ℕ))
    (h : Closed eligible acc.1 id ∨ id ∈ entries.map Prod.fst) :
    Closed eligible (entries.foldl (refundEntry eligible finish) acc).1 id := by
  induction entries generalizing acc with
  | nil => exact h.resolve_right List.not_mem_nil
  | cons e entries ih =>
    rw [List.map_cons, List.mem_cons, ← or_assoc] at h
    exact ih (h.imp_left (closed_refundEntry hfinish))

/-- After a pass every transfer of the batch is closed, and a second pass skips them all. -/
theorem refund_twice (entries : List (Str × Str × ℕ)) (c : CrossZoneState) :
    let first := (entries.foldl (refundEntry eligible finish) (c, [])).1
    entries.foldl (refundEntry eligible finish) (first, []) = (first, []) := by
  intro first
  have hclosed : ∀ e ∈ entries, Closed eligible first e.1 := fun e he =>
    closed_refunds hfinish entries (.inr (List.mem_map_of_mem he))
  clear_value first
  induction entries with
  | nil => rfl
  | cons e entries ih =>
    rw [List.foldl_cons, refundEntry_of_closed (hclosed e List.mem_cons_self)]
    exact ih fun e he => hclosed e (List.mem_cons_of_mem _ he)

end Batches

/-- **A batch pays once**: delivered again, it changes nothing. -/
theorem batch_redelivered (c : CrossZoneState) (batch : XZoneRefundBatch) :
    (c.applyRefundBatch batch).1.applyRefundBatch batch = ((c.applyRefundBatch batch).1, []) ∧
      (c.applyReapBatch batch).1.applyReapBatch batch = ((c.applyReapBatch batch).1, []) :=
  ⟨refund_twice (fun c _ _ => unindexNeedsProof_pending c _ _) batch.refunds c,
    refund_twice (fun _ _ _ => rfl) batch.refunds c⟩

end CrossZoneState

end ElaraMesh.Ledger
