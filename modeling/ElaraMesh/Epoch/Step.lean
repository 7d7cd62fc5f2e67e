import ElaraMesh.Epoch.State

/-!
# What a call does to the epoch state

A seal either becomes the tip of its zone, or it loses and leaves its hash in the window and its
output in the ring, or nothing happens.  Escalation seals touch the tip only.  Invariants are
derived from this case distinction; the memory of rivals that lost is not looked at.

## Main results

* `step_outcome` — every call has one of the outcomes.
* `chainAnchors_run` — no call changes the pinned anchors.
-/

namespace ElaraMesh
namespace Epoch

open Record (Str ZoneId)
open Smt (Bytes32)

variable {Time : Type}

namespace EpochState

/-- The state with another memory of rivals. -/
def withOrphans (s : EpochState Time) (siblings : Table (ZoneId × ℕ) (List Str)) :
    EpochState Time :=
  { s with orphanSiblings := siblings }

variable [LinearOrder Time]

/-- The state with a seal as the tip of its zone. -/
def install (s : EpochState Time) (t : ParsedEpochSeal Time) (recordId : Str)
    (recordHash : Bytes32) : EpochState Time :=
  ((s.setTip t.zone t.epochNumber recordId recordHash).seedVrfRing t recordHash).upsertSealWindow
    t.zone t.epochNumber recordHash

/-- The seal that a call registers: a promotion registers its seal when it succeeds. -/
def registered (s : EpochState Time) : Call Time → Option (ParsedEpochSeal Time × Bytes32)
  | .registerSeal t _ recordHash => some (t, recordHash)
  | .registerSealWithReconcile t _ recordHash _ _ => some (t, recordHash)
  | .promoteOrphanToCanonical t recordId recordHash =>
    if (s.promoteOrphanToCanonical t recordId recordHash).2 then some (t, recordHash) else none
  | .registerGlobalSeal _ _ _ => none

/-- The call registers a seal that does not become the tip. -/
def Loses (s : EpochState Time) : Call Time → Prop
  | .registerSeal t _ recordHash => ¬ s.shouldCanonicalize t recordHash
  | .registerSealWithReconcile t recordId recordHash incomingWeight existingWeight =>
    t.epochNumber < s.tip t.zone ∨
      t.epochNumber = s.tip t.zone ∧
      ¬ (s.latestSealId.lookup t.zone = some recordId ∧
        s.latestSealHash.lookup t.zone = some recordHash) ∧
      ¬ s.incomingWins t.zone recordHash incomingWeight existingWeight
  | .promoteOrphanToCanonical _ _ _ => False
  | .registerGlobalSeal _ _ _ => False

end EpochState

section Tips

variable {s : EpochState Time} {t : ParsedEpochSeal Time} {recordHash : Bytes32}

theorem tip_le_of_shouldCanonicalize (h : s.shouldCanonicalize t recordHash) :
    s.tip t.zone ≤ t.epochNumber := by
  change (if s.tip t.zone < t.epochNumber then true
    else if t.epochNumber = s.tip t.zone then s.lexMinWins t.zone recordHash else false) = true at h
  split_ifs at h with hlt heq
  · exact hlt.le
  · exact heq.ge

theorem le_tip_of_not_shouldCanonicalize (h : ¬ s.shouldCanonicalize t recordHash) :
    t.epochNumber ≤ s.tip t.zone := by
  refine not_lt.mp fun hlt => h ?_
  exact if_pos hlt

theorem recordTip_eq (s : EpochState Time) (t : ParsedEpochSeal Time) :
    ∃ siblings, s.recordTip t.zone t.epochNumber = s.withOrphans siblings := by
  unfold EpochState.recordTip
  cases s.latestSealId.lookup t.zone with
  | none => exact ⟨s.orphanSiblings, rfl⟩
  | some prevId => exact ⟨_, rfl⟩

end Tips

variable [LinearOrder Time]

inductive Outcome (s : EpochState Time) : Call Time → EpochState Time → Prop where
  /-- A pinned anchor refuses the seal. -/
  | refused {c : Call Time} {t : ParsedEpochSeal Time} {recordHash : Bytes32}
      (hregistered : s.registered c = some (t, recordHash))
      (hadmits : ¬ s.chainAnchorAdmits t.zone t.epochNumber recordHash) (hwins : ¬ s.Loses c) :
      Outcome s c s
  /-- The seal is the tip already. -/
  | again {c : Call Time} {t : ParsedEpochSeal Time} {recordHash : Bytes32}
      (hregistered : s.registered c = some (t, recordHash))
      (hepoch : t.epochNumber = s.tip t.zone)
      (hhash : s.latestSealHash.lookup t.zone = some recordHash) (hwins : ¬ s.Loses c) :
      Outcome s c s
  | idle {c : Call Time} (hregistered : s.registered c = none) (hwins : ¬ s.Loses c) :
      Outcome s c s
  /-- The seal becomes the tip. -/
  | canonical {c : Call Time} {t : ParsedEpochSeal Time} {recordId : Str} {recordHash : Bytes32}
      (siblings : Table (ZoneId × ℕ) (List Str))
      (hregistered : s.registered c = some (t, recordHash))
      (hepoch : s.tip t.zone ≤ t.epochNumber)
      (hadmits : s.chainAnchorAdmits t.zone t.epochNumber recordHash) (hwins : ¬ s.Loses c) :
      Outcome s c ((s.install t recordId recordHash).withOrphans siblings)
  /-- The seal does not become the tip. -/
  | losing {c : Call Time} {t : ParsedEpochSeal Time} {recordHash : Bytes32}
      (siblings : Table (ZoneId × ℕ) (List Str))
      (hregistered : s.registered c = some (t, recordHash))
      (hepoch : t.epochNumber ≤ s.tip t.zone) (hloses : s.Loses c) :
      Outcome s c ((s.registerLosing t recordHash).withOrphans siblings)
  /-- An escalation seal becomes the tip. -/
  | escalated {t : ParsedGlobalQuorumSeal} {recordId : Str} {recordHash : Bytes32}
      (hepoch : s.tip t.stuckZone ≤ t.stuckEpoch)
      (hadmits : s.chainAnchorAdmits t.stuckZone t.stuckEpoch recordHash) :
      Outcome s (.registerGlobalSeal t recordId recordHash)
        (s.setTip t.stuckZone t.stuckEpoch recordId recordHash)

/-! ### Every call has an outcome -/

section Cases

variable {s : EpochState Time} {t : ParsedEpochSeal Time} {recordId : Str} {recordHash : Bytes32}

theorem install_withOrphans (siblings : Table (ZoneId × ℕ) (List Str)) :
    (s.withOrphans siblings).install t recordId recordHash =
      (s.install t recordId recordHash).withOrphans siblings := by
  unfold EpochState.install EpochState.seedVrfRing
  cases t.vrfOutput with
  | none => rfl
  | some vrf => rfl

theorem registerLosing_withOrphans (siblings : Table (ZoneId × ℕ) (List Str)) :
    (s.withOrphans siblings).registerLosing t recordHash =
      (s.registerLosing t recordHash).withOrphans siblings := by
  unfold EpochState.registerLosing EpochState.seedVrfRing
  cases t.vrfOutput with
  | none => rfl
  | some vrf => rfl

theorem applyCanonicalSeal_of_admits
    (h : s.chainAnchorAdmits t.zone t.epochNumber recordHash) :
    s.applyCanonicalSeal t recordId recordHash = (s.install t recordId recordHash, true) :=
  if_neg (not_not_intro h)

theorem applyCanonicalSeal_of_not_admits
    (h : ¬ s.chainAnchorAdmits t.zone t.epochNumber recordHash) :
    s.applyCanonicalSeal t recordId recordHash = (s, false) :=
  if_pos h

/-- A seal that is to become the tip does, unless a pinned anchor refuses it. -/
theorem applyCanonicalSeal_outcome {c : Call Time}
    (hregistered : s.registered c = some (t, recordHash))
    (hepoch : s.tip t.zone ≤ t.epochNumber) (hwins : ¬ s.Loses c) :
    Outcome s c (s.applyCanonicalSeal t recordId recordHash).1 := by
  by_cases hadmits : s.chainAnchorAdmits t.zone t.epochNumber recordHash
  · rw [applyCanonicalSeal_of_admits hadmits]
    exact .canonical (s.install t recordId recordHash).orphanSiblings hregistered hepoch hadmits
      hwins
  · rw [applyCanonicalSeal_of_not_admits hadmits]
    exact .refused hregistered hadmits hwins

variable (s t recordId recordHash)

theorem registerSeal_outcome : Outcome s (.registerSeal t recordId recordHash)
    (s.registerSeal t recordId recordHash) := by
  unfold EpochState.registerSeal
  split_ifs with hwins
  · exact applyCanonicalSeal_outcome rfl (tip_le_of_shouldCanonicalize hwins) (not_not_intro hwins)
  · have hle := le_tip_of_not_shouldCanonicalize hwins
    exact Outcome.losing (c := .registerSeal t recordId recordHash)
      (s.registerLosing t recordHash).orphanSiblings rfl hle hwins

theorem registerSealWithReconcile_outcome (incomingWeight existingWeight : ℕ) :
    Outcome s (.registerSealWithReconcile t recordId recordHash incomingWeight existingWeight)
      (s.registerSealWithReconcile t recordId recordHash incomingWeight existingWeight).1 := by
  generalize hc : Call.registerSealWithReconcile t recordId recordHash incomingWeight
    existingWeight = c
  have hregistered : s.registered c = some (t, recordHash) := by
    subst hc
    rfl
  have hloses : s.Loses c ↔ t.epochNumber < s.tip t.zone ∨ t.epochNumber = s.tip t.zone ∧
      ¬ (s.latestSealId.lookup t.zone = some recordId ∧
        s.latestSealHash.lookup t.zone = some recordHash) ∧
      ¬ s.incomingWins t.zone recordHash incomingWeight existingWeight := by
    subst hc
    rfl
  unfold EpochState.registerSealWithReconcile
  dsimp only
  by_cases hnewer : s.tip t.zone < t.epochNumber
  · rw [if_pos hnewer]
    refine applyCanonicalSeal_outcome hregistered hnewer.le fun h => ?_
    rcases hloses.mp h with hlt | ⟨heq, -⟩ <;> omega
  rw [if_neg hnewer]
  by_cases holder : t.epochNumber < s.tip t.zone
  · rw [if_pos holder]
    exact .losing (s.registerLosing t recordHash).orphanSiblings hregistered holder.le
      (hloses.mpr (.inl holder))
  rw [if_neg holder]
  have hepoch : t.epochNumber = s.tip t.zone := le_antisymm (not_lt.mp hnewer) (not_lt.mp holder)
  by_cases hagain : s.latestSealId.lookup t.zone = some recordId ∧
      s.latestSealHash.lookup t.zone = some recordHash
  · rw [if_pos hagain]
    refine .again hregistered hepoch hagain.2 fun h => ?_
    exact ((hloses.mp h).resolve_left holder).2.1 hagain
  rw [if_neg hagain]
  by_cases hwins : s.incomingWins t.zone recordHash incomingWeight existingWeight
  · rw [if_pos hwins]
    have hnot : ¬ s.Loses c := fun h => ((hloses.mp h).resolve_left holder).2.2 hwins
    by_cases hadmits : s.chainAnchorAdmits t.zone t.epochNumber recordHash
    · rw [applyCanonicalSeal_of_admits hadmits]
      cases s.latestSealId.lookup t.zone with
      | none =>
        exact .canonical (s.install t recordId recordHash).orphanSiblings hregistered hepoch.ge
          hadmits hnot
      | some prevId =>
        exact .canonical ((s.install t recordId recordHash).recordOrphanSibling t.zone
          t.epochNumber prevId).orphanSiblings hregistered hepoch.ge hadmits hnot
    · rw [applyCanonicalSeal_of_not_admits hadmits]
      exact .refused hregistered hadmits hnot
  · rw [if_neg hwins]
    have horphans : s.recordOrphanSibling t.zone t.epochNumber recordId =
        s.withOrphans (s.recordOrphanSibling t.zone t.epochNumber recordId).orphanSiblings := rfl
    rw [horphans, registerLosing_withOrphans]
    exact .losing _ hregistered hepoch.le (hloses.mpr (.inr ⟨hepoch, hagain, hwins⟩))

/-- A promotion either changes nothing, or it installs its seal. -/
theorem promoteOrphanToCanonical_cases :
    s.promoteOrphanToCanonical t recordId recordHash = (s, false) ∨
    s.tip t.zone ≤ t.epochNumber ∧ s.chainAnchorAdmits t.zone t.epochNumber recordHash ∧
      ∃ siblings, s.promoteOrphanToCanonical t recordId recordHash =
        ((s.install t recordId recordHash).withOrphans siblings, true) := by
  unfold EpochState.promoteOrphanToCanonical
  dsimp only
  split_ifs with hepoch hid hring hadmits
  · exact .inl rfl
  · exact .inl rfl
  · refine .inr ⟨(not_not.mp hepoch).ge, hadmits, ?_⟩
    obtain ⟨siblings, hprev⟩ := recordTip_eq s t
    have hadmits' : (s.withOrphans siblings).chainAnchorAdmits t.zone t.epochNumber recordHash :=
      hadmits
    rw [hprev, applyCanonicalSeal_of_admits hadmits', install_withOrphans]
    exact ⟨_, rfl⟩
  · exact .inl rfl
  · exact .inl rfl

theorem promoteOrphanToCanonical_outcome :
    Outcome s (.promoteOrphanToCanonical t recordId recordHash)
      (s.promoteOrphanToCanonical t recordId recordHash).1 := by
  rcases promoteOrphanToCanonical_cases s t recordId recordHash with h | ⟨hepoch, hadmits, _, h⟩
  · have hregistered : s.registered (.promoteOrphanToCanonical t recordId recordHash) = none :=
      if_neg (by simp [h])
    rw [h]
    exact .idle hregistered id
  · have hregistered : s.registered (.promoteOrphanToCanonical t recordId recordHash) =
        some (t, recordHash) := if_pos (by rw [h])
    rw [h]
    exact .canonical _ hregistered hepoch hadmits id

theorem registerGlobalSeal_outcome (t : ParsedGlobalQuorumSeal) :
    Outcome s (.registerGlobalSeal t recordId recordHash)
      (s.registerGlobalSeal t recordId recordHash).1 := by
  unfold EpochState.registerGlobalSeal
  dsimp only
  split_ifs with hadmits hepoch
  · exact .escalated hepoch hadmits
  · exact .idle rfl id
  · exact .idle rfl id

/-- **Every call has one of the outcomes.** -/
theorem step_outcome (c : Call Time) : Outcome s c (s.step c) := by
  cases c with
  | registerSeal t recordId recordHash => exact registerSeal_outcome s t recordId recordHash
  | registerSealWithReconcile t recordId recordHash incomingWeight existingWeight =>
    exact registerSealWithReconcile_outcome s t recordId recordHash incomingWeight existingWeight
  | promoteOrphanToCanonical t recordId recordHash =>
    exact promoteOrphanToCanonical_outcome s t recordId recordHash
  | registerGlobalSeal t recordId recordHash =>
    exact registerGlobalSeal_outcome s recordId recordHash t

end Cases

/-! ### The pinned anchors -/

theorem chainAnchors_install (s : EpochState Time) (t : ParsedEpochSeal Time) (recordId : Str)
    (recordHash : Bytes32) : (s.install t recordId recordHash).chainAnchors = s.chainAnchors :=
  EpochState.seedVrfRing_chainAnchors _ t recordHash

theorem chainAnchors_registerLosing (s : EpochState Time) (t : ParsedEpochSeal Time)
    (recordHash : Bytes32) : (s.registerLosing t recordHash).chainAnchors = s.chainAnchors :=
  EpochState.seedVrfRing_chainAnchors _ t recordHash

theorem Outcome.chainAnchors_eq {s s' : EpochState Time} {c : Call Time} (h : Outcome s c s') :
    s'.chainAnchors = s.chainAnchors := by
  cases h with
  | refused => rfl
  | again => rfl
  | idle => rfl
  | canonical => exact chainAnchors_install s _ _ _
  | losing => exact chainAnchors_registerLosing s _ _
  | escalated => rfl

/-- What holds at the start and is kept by every call holds after all calls. -/
theorem run_induction {P : EpochState Time → Prop}
    {chainAnchors : List (List UInt8 × ℕ × Bytes32)} {calls : List (Call Time)}
    (hnew : P (.new chainAnchors)) (hstep : ∀ s, ∀ c ∈ calls, P s → P (s.step c)) :
    P (run chainAnchors calls) :=
  List.foldlRecOn calls EpochState.step hnew fun s hs c hc => hstep s c hc hs

/-- No call changes the pinned anchors. -/
theorem chainAnchors_run (chainAnchors : List (List UInt8 × ℕ × Bytes32))
    (calls : List (Call Time)) : (run chainAnchors calls).chainAnchors = chainAnchors :=
  run_induction (P := fun s => s.chainAnchors = chainAnchors) rfl fun s c _ hs =>
    (step_outcome s c).chainAnchors_eq.trans hs

end Epoch
end ElaraMesh
