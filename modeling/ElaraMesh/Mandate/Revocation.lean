import ElaraMesh.Mandate.Verdict

/-!
# Revocations on a node

A node stores each revocation it sees, whoever signed it, under the mandate and the signer, and
keeps the earliest.  Revocations reach nodes in any order and more than once.  `valid_replay_iff`
says what they do to an act: it stays valid exactly if none of them, by the principal of a mandate
in its chain, is at or before it.
-/

namespace ElaraMesh.Mandate

open Record (Str)

/-- A revocation, with the identity that signed it and the time of the record. -/
structure Revocation where
  mandateId : Str
  revoker : Str
  revokedAtMs : UInt64

/-- The key of a revocation: two texts in lower case, one after the other. -/
def revocationKey (mandateId revoker : Str) : List UInt8 := mandateId.lower ++ revoker.lower

/-- The stored revocations, by key. -/
abbrev RevocationColumn := List UInt8 → Option UInt64

/-- Store a revocation unless there is one that is not later. -/
def putRevocation (column : RevocationColumn) (r : Revocation) : RevocationColumn :=
  let key := revocationKey r.mandateId r.revoker
  if (column key).any (· ≤ r.revokedAtMs) then column
  else Function.update column key (some r.revokedAtMs)

/-- Read access to what a node has stored. -/
def storageMandateResolver (mandate : Str → Option MandateRecord) (column : RevocationColumn) :
    MandateResolver :=
  ⟨mandate, fun mandateId principal => column (revocationKey mandateId principal)⟩

theorem putRevocation_any_le (column : RevocationColumn) (r : Revocation) (key : List UInt8)
    (act : UInt64) : (putRevocation column r key).any (· ≤ act) = true ↔
      (column key).any (· ≤ act) = true ∨
        (revocationKey r.mandateId r.revoker = key ∧ r.revokedAtMs ≤ act) := by
  by_cases hkey : revocationKey r.mandateId r.revoker = key
  · subst hkey
    cases hstored : column (revocationKey r.mandateId r.revoker) with
    | none => simp [putRevocation, hstored]
    | some prev =>
      by_cases hprev : prev ≤ r.revokedAtMs
      · simpa [putRevocation, hstored, hprev] using UInt64.le_trans hprev
      · have hle := UInt64.le_of_lt (UInt64.not_le.mp hprev)
        simpa [putRevocation, hstored, hprev] using UInt64.le_trans hle
  · have hother : putRevocation column r key = column key := by
      unfold putRevocation
      split
      · rfl
      · exact Function.update_of_ne (Ne.symm hkey) _ _
    simp [hother, hkey]

theorem replay_any_le (column : RevocationColumn) (rs : List Revocation) (key : List UInt8)
    (act : UInt64) : (rs.foldl putRevocation column key).any (· ≤ act) = true ↔
      (column key).any (· ≤ act) = true ∨
        ∃ r ∈ rs, revocationKey r.mandateId r.revoker = key ∧ r.revokedAtMs ≤ act := by
  induction rs generalizing column with
  | nil => simp
  | cons r rs ih => simp [ih, putRevocation_any_le, or_assoc]

/-- The walk to the root asks for no revocation. -/
theorem walkChain_column (mandate : Str → Option MandateRecord) (column column' : RevocationColumn)
    (networkId : Str) (chain : Lineage) :
    walkChain (storageMandateResolver mandate column) networkId chain =
      walkChain (storageMandateResolver mandate column') networkId chain := by
  fun_induction walkChain (storageMandateResolver mandate column') networkId chain <;>
    rw [walkChain] <;> simp_all [storageMandateResolver]

theorem chainVerdict_valid_iff {claim : MandateClaim} {resolver : MandateResolver} {enforce : Bool}
    {m : MandateRecord} {chain : Lineage} :
    (chainVerdict claim resolver enforce m chain).1 = .valid ↔
      chain.any (revokedBy resolver claim.actTimestampMs) = false ∧
      leafVerdict claim (chain.headD (claim.mandateRef, m)).2 enforce = .valid := by
  refine ⟨fun h => (chainVerdict_valid h).2, fun h => ?_⟩
  rw [chainVerdict, h.1, h.2]
  rfl

/-- No revocation by the principal of a mandate of the chain is at or before the act. -/
def Spares (rs : List Revocation) (act : UInt64) (chain : Lineage) : Prop :=
  ∀ hop ∈ chain, ∀ r ∈ rs, revocationKey r.mandateId r.revoker =
    revocationKey hop.1 hop.2.principalIdentityHash → act < r.revokedAtMs

section Replay

variable (mandate : Str → Option MandateRecord) (column : RevocationColumn) (rs : List Revocation)
  (claim : MandateClaim) (enforce : Bool)

theorem chainVerdict_replay_iff (m : MandateRecord) (chain : Lineage) :
    let before := chainVerdict claim (storageMandateResolver mandate column) enforce m chain
    (chainVerdict claim (storageMandateResolver mandate (rs.foldl putRevocation column)) enforce m
      chain).1 = .valid ↔ before.1 = .valid ∧ Spares rs claim.actTimestampMs before.2 := by
  intro before
  have hrevoked : chain.any (revokedBy (storageMandateResolver mandate
      (rs.foldl putRevocation column)) claim.actTimestampMs) = false ↔
      chain.any (revokedBy (storageMandateResolver mandate column) claim.actTimestampMs) = false ∧
        Spares rs claim.actTimestampMs chain := by
    simp only [Spares, List.any_eq_false, revokedBy, storageMandateResolver, replay_any_le, not_or,
      forall_and, not_exists, not_and, UInt64.not_le]
  rw [chainVerdict_valid_iff, hrevoked, and_right_comm, ← chainVerdict_valid_iff]
  exact and_congr_right fun h => by rw [(chainVerdict_valid h).1]

/-- **The verdict after any run of revocations**, in whatever order and however often they came. -/
theorem valid_replay_iff :
    let before := evaluateMandateInnerWithChain claim (storageMandateResolver mandate column) enforce
    (evaluateMandateInnerWithChain claim
      (storageMandateResolver mandate (rs.foldl putRevocation column)) enforce).1 = .valid ↔
    before.1 = .valid ∧ Spares rs claim.actTimestampMs before.2 := by
  have hmandate : ∀ c, (storageMandateResolver mandate c).mandate = mandate := fun _ => rfl
  have hnil : ∀ act, Spares rs act [] := fun _ => List.forall_mem_nil _
  simp only [evaluateMandateInnerWithChain, hmandate,
    walkChain_column mandate (rs.foldl putRevocation column) column]
  -- up to the chain no revocation is looked at
  cases mandate claim.mandateRef with
  | none => simp
  | some m =>
    dsimp only
    split
    · simp
    · split
      · simp
      · cases walkChain (storageMandateResolver mandate column) claim.networkId
            [(claim.mandateRef, m)] with
        | error flag => simp [hnil]
        | ok chain => exact chainVerdict_replay_iff mandate column rs claim enforce m chain

end Replay

end ElaraMesh.Mandate
