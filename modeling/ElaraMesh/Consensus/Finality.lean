import ElaraMesh.Consensus.Levels

/-!
# Finality along a run

A run is a sequence of public calls, each followed by its tasks.  Every path that writes a
level but one looks at the level before: `recompute_confirmation` writes what the
attestations give, whatever stood there.  A run keeps the levels of its final records, and
announces each of them once, exactly if every recomputation of a final record gives at
least the level the record has.

## Main results

* `Step.advances` — what one step preserves.
* `chain_advances_iff` — what a whole run preserves, and when.
-/

namespace ElaraMesh.Consensus

open Record (Str)
open Smt (Sha3)

namespace AWCConsensus

def Final (s : AWCConsensus) (r : Str) : Prop := (s.confirmationLevel r).isFinal = true

/-- No final record falls, and the announcements between are of different records. -/
structure Advances (s t : AWCConsensus) : Prop where
  level_le : ∀ r, s.Final r → s.confirmationLevel r ≤ t.confirmationLevel r
  announced : ∃ pushed, t.finalizationQueue = s.finalizationQueue ++ pushed ∧ pushed.Nodup

/-- `Advances`, with the announcements tied to the records that became final. -/
structure Promotes (s t : AWCConsensus) : Prop where
  level_le : ∀ r, s.Final r → s.confirmationLevel r ≤ t.confirmationLevel r
  announced : ∃ pushed, t.finalizationQueue = s.finalizationQueue ++ pushed ∧ pushed.Nodup ∧
    ∀ r ∈ pushed, ¬ s.Final r ∧ t.Final r

variable {s t : AWCConsensus} {r : Str}

theorem Promotes.advances (h : s.Promotes t) : s.Advances t := by
  obtain ⟨pushed, hqueue, hnodup, _⟩ := h.announced
  exact ⟨h.level_le, pushed, hqueue, hnodup⟩

theorem Promotes.final (h : s.Promotes t) (hr : s.Final r) :
    t.Final r :=
  ConfirmationLevel.isFinal_iff.mpr ((ConfirmationLevel.isFinal_iff.mp hr).trans (h.level_le r hr))

theorem Promotes.refl (s : AWCConsensus) : s.Promotes s :=
  ⟨fun _ _ => le_rfl, [], (List.append_nil _).symm, List.nodup_nil, fun _ h => by cases h⟩

theorem Promotes.trans {u : AWCConsensus} (h₁ : s.Promotes t) (h₂ : t.Promotes u) :
    s.Promotes u := by
  obtain ⟨p₁, hq₁, hn₁, hf₁⟩ := h₁.announced
  obtain ⟨p₂, hq₂, hn₂, hf₂⟩ := h₂.announced
  refine ⟨fun r hr => (h₁.level_le r hr).trans (h₂.level_le r (h₁.final hr)), p₁ ++ p₂, ?_, ?_, ?_⟩
  · rw [hq₂, hq₁, List.append_assoc]
  · -- what was announced before was final and is not announced again
    refine hn₁.append hn₂ fun r hr₁ hr₂ => ?_
    exact (hf₂ r hr₂).1 (hf₁ r hr₁).2
  · intro r hr
    rcases List.mem_append.mp hr with hr | hr
    · exact ⟨(hf₁ r hr).1, h₂.final (hf₁ r hr).2⟩
    · exact ⟨fun hs => (hf₂ r hr).1 (h₁.final hs), (hf₂ r hr).2⟩

/-- A call that touches neither levels nor announcements. -/
theorem Promotes.of_eq (hl : t.confirmationLevels = s.confirmationLevels)
    (hq : t.finalizationQueue = s.finalizationQueue) : s.Promotes t := by
  refine ⟨fun r _ => ?_, [], ?_, List.nodup_nil, fun _ h => by cases h⟩
  · unfold confirmationLevel
    rw [hl]
  · rw [hq, List.append_nil]

theorem Promotes.foldl {ι : Type} {f : AWCConsensus → ι → AWCConsensus}
    (hf : ∀ (s : AWCConsensus) i, s.Promotes (f s i)) (is : List ι) (s : AWCConsensus) :
    s.Promotes (is.foldl f s) := by
  induction is generalizing s with
  | nil => exact Promotes.refl s
  | cons i is ih => exact (hf s i).trans (ih (f s i))

/-! ### Writes of levels -/

@[simp] theorem confirmationLevel_setLevel (s : AWCConsensus) (r q : Str) (l : ConfirmationLevel) :
    (s.setLevel r l).confirmationLevel q = if q = r then l else s.confirmationLevel q :=
  Table.getD_insert _ _ _ _ _

/-- A level that does not fall below that of a final record, without an announcement. -/
theorem promotes_setLevel (s : AWCConsensus) (r : Str) (l : ConfirmationLevel)
    (h : s.Final r → s.confirmationLevel r ≤ l) : s.Promotes (s.setLevel r l) := by
  refine ⟨fun q hq => ?_, [], (List.append_nil _).symm, List.nodup_nil, fun _ h => by cases h⟩
  rw [confirmationLevel_setLevel]
  split
  · next heq => rw [heq] at hq ⊢; exact h hq
  · exact le_rfl

@[simp] theorem confirmationLevels_enqueueFinalized (s : AWCConsensus) (r : Str) :
    (s.enqueueFinalized r).confirmationLevels = s.confirmationLevels := by
  unfold enqueueFinalized
  split <;> rfl

theorem finalizationQueue_enqueueFinalized (s : AWCConsensus) (r : Str) :
    ∃ pushed, (s.enqueueFinalized r).finalizationQueue = s.finalizationQueue ++ pushed ∧
      pushed.Nodup ∧ ∀ q ∈ pushed, q = r := by
  unfold enqueueFinalized
  split
  · exact ⟨[], (List.append_nil _).symm, List.nodup_nil, fun _ h => by cases h⟩
  · exact ⟨[r], rfl, List.nodup_singleton r, fun q hq => List.mem_singleton.mp hq⟩

/-- A record that becomes final and is announced. -/
theorem promotes_enqueueFinalized (h : s.Promotes t)
    (hqueue : t.finalizationQueue = s.finalizationQueue) (hold : ¬ s.Final r) (hnew : t.Final r) :
    s.Promotes (t.enqueueFinalized r) := by
  have hlevel : ∀ q, (t.enqueueFinalized r).confirmationLevel q = t.confirmationLevel q := by
    intro q
    unfold confirmationLevel
    rw [confirmationLevels_enqueueFinalized]
  obtain ⟨pushed, hpushed, hnodup, hmem⟩ := finalizationQueue_enqueueFinalized t r
  refine ⟨fun q hq => ?_, pushed, ?_, hnodup, fun q hq => ?_⟩
  · rw [hlevel]
    exact h.level_le q hq
  · rw [hpushed, hqueue]
  · rw [hmem q hq]
    refine ⟨hold, ?_⟩
    unfold Final
    rw [hlevel]
    exact hnew

theorem promotes_finalize (h : ¬ s.Final r) :
    s.Promotes ((s.setLevel r .finalized).enqueueFinalized r) := by
  refine promotes_enqueueFinalized (promotes_setLevel s r _ fun hr => absurd hr h) rfl h ?_
  unfold Final
  rw [confirmationLevel_setLevel, if_pos rfl]
  rfl

theorem promotes_promoteMember (s : AWCConsensus) (r : Str) : s.Promotes (s.promoteMember r) := by
  unfold promoteMember
  split
  · exact Promotes.refl s
  · next h => exact promotes_finalize h

theorem promotes_promoteSealMembers (s : AWCConsensus) (rs : List Str) :
    s.Promotes (s.promoteSealMembers rs) :=
  Promotes.foldl promotes_promoteMember rs s

theorem promotes_sealRecord (sealId : Str) (s : AWCConsensus) (r : Str) :
    s.Promotes (sealRecord sealId s r) := by
  unfold sealRecord
  dsimp only
  split
  · next hlt =>
    refine (promotes_setLevel s r .sealed fun hr => ?_).trans (Promotes.of_eq rfl rfl)
    have hfinal := ConfirmationLevel.isFinal_iff.mp hr
    exact absurd (hfinal.trans_lt hlt) (by decide)
  · exact Promotes.of_eq rfl rfl

theorem promotes_anchorMember (s : AWCConsensus) (r : Str) : s.Promotes (s.anchorMember r) := by
  unfold anchorMember
  split
  · exact Promotes.refl s
  · refine Promotes.trans (t := { s with anchored := insert r s.anchored }) (Promotes.of_eq rfl rfl) ?_
    refine promotes_setLevel _ r .anchored fun _ => ?_
    generalize confirmationLevel _ r = l
    cases l <;> decide

theorem promotes_anchorSeal (s : AWCConsensus) (sealId : Str) : s.Promotes (s.anchorSeal sealId) :=
  (Promotes.foldl promotes_anchorMember _ s).trans (Promotes.of_eq rfl rfl)

theorem promotes_registerSealRecords (s : AWCConsensus) (sealId : Str) (rs : List Str) :
    s.Promotes (s.registerSealRecords sealId rs) := by
  unfold registerSealRecords
  dsimp only
  have hsealed := (Promotes.foldl (promotes_sealRecord sealId) rs s).trans
    (Promotes.of_eq (t := { rs.foldl (sealRecord sealId) s with
      sealRecordIds := (rs.foldl (sealRecord sealId) s).sealRecordIds.insert sealId rs }) rfl rfl)
  split
  · exact hsealed.trans (promotes_promoteSealMembers _ rs)
  · exact hsealed

theorem promotes_evictOldestSealAttestations [Iteration] (s : AWCConsensus) (n : ℕ) :
    s.Promotes (s.evictOldestSealAttestations n) :=
  Promotes.foldl (fun _ _ => by exact Promotes.of_eq rfl rfl) _ s

theorem promotes_admitSealAttestation (s : AWCConsensus) (a : SealAttestation) (now : F64) :
    s.Promotes (s.admitSealAttestation a now) := by
  unfold admitSealAttestation
  split
  · exact Promotes.of_eq rfl rfl
  · split
    · exact Promotes.refl s
    · dsimp only
      split
      · split
        · refine Promotes.trans ?_ (promotes_promoteSealMembers _ _)
          exact Promotes.of_eq rfl rfl
        · exact Promotes.of_eq rfl rfl
      · exact Promotes.of_eq rfl rfl

theorem promotes_addSealAttestation [Iteration] (s : AWCConsensus) (a : SealAttestation)
    (now : F64) : s.Promotes (s.addSealAttestation a now) := by
  unfold addSealAttestation
  dsimp only
  split
  · refine Promotes.trans ?_ (promotes_admitSealAttestation _ a now)
    refine Promotes.trans ?_ (promotes_evictOldestSealAttestations _ _)
    exact Promotes.of_eq rfl rfl
  · refine Promotes.trans ?_ (promotes_admitSealAttestation _ a now)
    exact Promotes.of_eq rfl rfl

theorem promotes_admitAttestation (s : AWCConsensus) (a : Attestation) :
    s.Promotes (s.admitAttestation a).1 := by
  unfold admitAttestation
  split
  · exact Promotes.of_eq rfl rfl
  · dsimp only
    split
    · exact Promotes.of_eq rfl rfl
    · exact Promotes.of_eq rfl rfl

theorem promotes_registerCrossZoneParents (s : AWCConsensus) (r : Str) (parents : List Str) :
    s.Promotes (s.registerCrossZoneParents r parents) := by
  unfold registerCrossZoneParents
  split
  · exact Promotes.refl s
  · exact Promotes.of_eq rfl rfl

/-! ### Tasks -/

@[simp] theorem confirmationLevels_announceSealed (s : AWCConsensus) (sup : Bool) (r : Str)
    (old new : ConfirmationLevel) :
    (s.announceSealed sup r old new).confirmationLevels = s.confirmationLevels := by
  unfold announceSealed enqueueSealed
  split
  · split <;> rfl
  · rfl

@[simp] theorem finalizationQueue_announceSealed (s : AWCConsensus) (sup : Bool) (r : Str)
    (old new : ConfirmationLevel) :
    (s.announceSealed sup r old new).finalizationQueue = s.finalizationQueue := by
  unfold announceSealed enqueueSealed
  split
  · split <;> rfl
  · rfl

@[simp] theorem confirmationLevels_announce (s : AWCConsensus) (sup : Bool) (r : Str)
    (old new : ConfirmationLevel) :
    (s.announce sup r old new).confirmationLevels = s.confirmationLevels := by
  unfold announce
  split <;> simp

/-- The announcements after a level was written over an old one. -/
theorem promotes_announce (sup : Bool) (h : s.Promotes t)
    (hqueue : t.finalizationQueue = s.finalizationQueue) :
    s.Promotes (t.announce sup r (s.confirmationLevel r) (t.confirmationLevel r)) := by
  have hsealed := h.trans (Promotes.of_eq
    (confirmationLevels_announceSealed t sup r (s.confirmationLevel r) (t.confirmationLevel r))
    (finalizationQueue_announceSealed t sup r _ _))
  unfold announce
  split
  · next hedge =>
    refine promotes_enqueueFinalized hsealed ?_ hedge.2.1 ?_
    · rw [finalizationQueue_announceSealed, hqueue]
    · unfold Final confirmationLevel
      rw [confirmationLevels_announceSealed]
      exact hedge.1
  · exact hsealed

section Tasks

variable [Sha3]

def recomputedLevel (s : AWCConsensus) (r : Str) : ConfirmationLevel :=
  if s.attestationsOf r = [] then .pending
  else if r ∈ s.anchored then .anchored
  else s.evaluatedLevel r

/-- A final record keeps its level when it is recomputed: it still has attestations, and
it is marked as anchored, or it is not anchored and they still make it final. -/
def Rederives (s : AWCConsensus) (r : Str) : Prop :=
  s.Final r → s.attestationsOf r ≠ [] ∧
    (r ∈ s.anchored ∨ (s.confirmationLevel r = .finalized ∧ s.confirms r = true))

theorem evaluatedLevel_le (s : AWCConsensus) (r : Str) : s.evaluatedLevel r ≤ .finalized := by
  unfold evaluatedLevel
  split
  · exact le_rfl
  · split <;> decide

theorem rederives_iff (s : AWCConsensus) (r : Str) :
    s.Rederives r ↔ (s.Final r → s.confirmationLevel r ≤ s.recomputedLevel r) := by
  unfold Rederives recomputedLevel
  refine imp_congr_right fun hfinal => ?_
  have hle := ConfirmationLevel.isFinal_iff.mp hfinal
  by_cases hatts : s.attestationsOf r = []
  · rw [if_pos hatts]
    exact ⟨fun h => absurd hatts h.1, fun h => absurd (hle.trans h) (by decide)⟩
  · rw [if_neg hatts]
    by_cases hanch : r ∈ s.anchored
    · rw [if_pos hanch]
      refine ⟨fun _ => ?_, fun _ => ⟨hatts, Or.inl hanch⟩⟩
      generalize s.confirmationLevel r = l
      cases l <;> decide
    · rw [if_neg hanch]
      constructor
      · rintro ⟨_, h | ⟨hlevel, hconf⟩⟩
        · exact absurd h hanch
        · rw [hlevel, evaluatedLevel, if_pos hconf]
      · intro h
        refine ⟨hatts, Or.inr ⟨le_antisymm (h.trans (s.evaluatedLevel_le r)) hle, ?_⟩⟩
        by_contra hconf
        have hlow : s.evaluatedLevel r ≤ .sealed := by
          rw [evaluatedLevel, if_neg hconf]
          split <;> decide
        exact absurd ((hle.trans h).trans hlow) (by decide)

variable [Iteration]

@[simp] theorem confirmationLevel_visit (s : AWCConsensus) (sup : Bool) (r q : Str) :
    (s.visit sup r).1.confirmationLevel q =
      if q = r then s.recomputedLevel r else s.confirmationLevel q := by
  unfold visit recomputedLevel
  split
  · exact confirmationLevel_setLevel s r q _
  · split
    · exact confirmationLevel_setLevel s r q _
    · have hboost : ∀ l, (s.countBoost r l).confirmationLevels = s.confirmationLevels := by
        intro l
        unfold countBoost
        split <;> rfl
      unfold confirmationLevel
      dsimp only
      rw [confirmationLevels_announce, setLevel, hboost]
      exact Table.getD_insert _ _ _ _ _

theorem promotes_visit {s : AWCConsensus} {r : Str} (sup : Bool) (h : s.Rederives r) :
    s.Promotes (s.visit sup r).1 := by
  have hle := (s.rederives_iff r).mp h
  unfold recomputedLevel at hle
  unfold visit
  split
  · next hatts =>
    rw [if_pos hatts] at hle
    exact promotes_setLevel s r _ hle
  · next hatts =>
    rw [if_neg hatts] at hle
    split
    · next hanch =>
      rw [if_pos hanch] at hle
      exact promotes_setLevel s r _ hle
    · next hanch =>
      rw [if_neg hanch] at hle
      dsimp only
      have hboost : s.Promotes (s.countBoost r (s.evaluatedLevel r)) := by
        unfold countBoost
        split <;> exact Promotes.of_eq rfl rfl
      have hlevel : ∀ q, (s.countBoost r (s.evaluatedLevel r)).confirmationLevel q =
          s.confirmationLevel q := by
        intro q
        unfold countBoost
        split <;> rfl
      have hqueue : (s.countBoost r (s.evaluatedLevel r)).finalizationQueue =
          s.finalizationQueue := by
        unfold countBoost
        split <;> rfl
      have hwrite := hboost.trans (promotes_setLevel _ r (s.evaluatedLevel r) (by
        unfold Final
        rw [hlevel]
        exact hle))
      have hannounced := promotes_announce (r := r) sup hwrite hqueue
      rwa [confirmationLevel_setLevel, if_pos rfl] at hannounced

theorem promotes_force (s : AWCConsensus) (r : Str) : s.Promotes (s.perform (.force r)).1 := by
  show s.Promotes (if (s.confirmationLevel r).isFinal then (s, []) else _).1
  split
  · exact Promotes.refl s
  · next h => exact promotes_finalize h

/-- No call but an attestation at the memory budget moves a final record. -/
theorem promotes_start {s : AWCConsensus}
    (hroom : s.attestations.entries.length < maxAttestationRecords) (c : Call) : s.Promotes (s.start c).1 := by
  cases c with
  | addAttestation a =>
    show s.Promotes (s.addAttestation a).1
    rw [addAttestation, if_neg (Nat.not_le.mpr hroom)]
    exact promotes_admitAttestation s a
  | forceFinalized r => exact Promotes.refl s
  | forceFinalizeSettled => exact Promotes.refl s
  | registerSealRecords sealId rs => exact promotes_registerSealRecords s sealId rs
  | addSealAttestation a now => exact promotes_addSealAttestation s a now
  | registerCrossZoneParents r parents => exact promotes_registerCrossZoneParents s r parents
  | registerProfile w profile => exact Promotes.of_eq rfl rfl
  | promoteAnchored now => exact Promotes.foldl promotes_anchorSeal _ s

end Tasks

end AWCConsensus

/-! ### Runs -/

open AWCConsensus

/-- The engine with the tasks it has still to perform. -/
structure Config where
  state : AWCConsensus
  agenda : List Task

section Runs

variable [Sha3] [Iteration]

/-- One step: a call when nothing is left to do, or the first task. -/
inductive Step : Config → Config → Prop
  | call (s : AWCConsensus) (c : Call) : Step ⟨s, []⟩ ⟨(s.start c).1, (s.start c).2⟩
  | task (s : AWCConsensus) (t : Task) (ts : List Task) :
    Step ⟨s, t :: ts⟩ ⟨(s.perform t).1, (s.perform t).2 ++ ts⟩

namespace Config

/-- The next task does not lower the level of a final record. -/
def Rederives (c : Config) : Prop :=
  match c.agenda with
  | .recompute r _ :: _ => c.state.Rederives r
  | _ => True

/-- The next attestation evicts nothing. -/
def Roomy (c : Config) : Prop := c.state.attestations.entries.length < maxAttestationRecords

end Config

variable {c : Config}

theorem Step.promotes {d : Config} (h : Step c d) (hroom : c.Roomy) (hred : c.Rederives) :
    c.state.Promotes d.state := by
  cases h with
  | call s call => exact promotes_start hroom call
  | task s t ts =>
    cases t with
    | recompute r sup => exact promotes_visit sup hred
    | force r => exact promotes_force s r

/-- A step that lowers no final record recomputes none below its level. -/
theorem Step.rederives {d : Config} (h : Step c d) (hadv : c.state.Advances d.state) :
    c.Rederives := by
  cases h with
  | call s call => trivial
  | task s t ts =>
    cases t with
    | recompute r sup =>
      refine (s.rederives_iff r).mpr fun hr => ?_
      have hle := hadv.level_le r hr
      rwa [show (s.perform (.recompute r sup)).1 = (s.visit sup r).1 from rfl,
        confirmationLevel_visit, if_pos rfl] at hle
    | force r => trivial

/-- What a run preserves: if no final record is recomputed below its level, every state
has promoted those before it. -/
theorem chain_promotes {cs : List Config} (hrun : List.IsChain Step (c :: cs))
    (hroom : ∀ d ∈ c :: cs, d.Roomy) (hred : ∀ d ∈ (c :: cs).dropLast, d.Rederives) :
    ∀ d ∈ c :: cs, c.state.Promotes d.state := by
  induction cs generalizing c with
  | nil =>
    intro d hd
    rw [List.mem_singleton.mp hd]
    exact Promotes.refl _
  | cons e es ih =>
    obtain ⟨hstep, hrest⟩ := List.isChain_cons_cons.mp hrun
    have hfirst := hstep.promotes (hroom c List.mem_cons_self) (hred c List.mem_cons_self)
    have hlater := ih hrest (fun d hd => hroom d (List.mem_cons_of_mem c hd))
      (fun d hd => hred d (List.mem_cons_of_mem c hd))
    intro d hd
    rcases List.mem_cons.mp hd with rfl | hd
    · exact Promotes.refl _
    · exact hfirst.trans (hlater d hd)

/-- In a run without eviction no final record ever falls, and every record is announced
at most once, exactly if every recomputation of a final record gives at least its level. -/
theorem chain_advances_iff {c : Config} {cs : List Config} (hrun : List.IsChain Step (c :: cs))
    (hroom : ∀ d ∈ c :: cs, d.Roomy) :
    ((c :: cs).map Config.state).Pairwise Advances ↔ ∀ d ∈ (c :: cs).dropLast, d.Rederives := by
  induction cs generalizing c with
  | nil => simp
  | cons e es ih =>
    obtain ⟨hstep, hrest⟩ := List.isChain_cons_cons.mp hrun
    have hroom' : ∀ d ∈ e :: es, d.Roomy := fun d hd => hroom d (List.mem_cons_of_mem c hd)
    rw [List.map_cons, List.pairwise_cons, ih hrest hroom', List.dropLast_cons_cons,
      List.forall_mem_cons]
    refine and_congr_left fun hred => ⟨fun h => ?_, fun hc => ?_⟩
    · exact hstep.rederives (h e.state (List.mem_map_of_mem List.mem_cons_self))
    · have hlater := chain_promotes hrest hroom' hred
      have hfirst := hstep.promotes (hroom c List.mem_cons_self) hc
      intro t ht
      obtain ⟨d, hd, rfl⟩ := List.mem_map.mp ht
      exact (hfirst.trans (hlater d hd)).advances

end Runs

/-! ### A record that falls and is announced twice -/

section Sample

attribute [local instance] Smt.guardedSha3 Iteration.stored

def sampleRecord : Str := .text "r"

/-- One zone with a stake of 45, and the creator of the record, who has no stake. -/
def sampleEngine : AWCConsensus :=
  (registerCreatorStake (registerStakes { AWCConsensus.new with zoneCount := 1 } 45 [] 1)
    sampleRecord (.text "k") 0).1

/-- An attestation of the record with a stake of 10. -/
def sampleAttestation (witness : Str) (timestamp : F64) : Call :=
  .addAttestation ⟨sampleRecord, witness, 10, timestamp⟩

/-- Three witnesses at 0, 0.75 and 20 seconds are three clusters. -/
def sampleThree : List Call :=
  [sampleAttestation (.text "a") F64.zero, sampleAttestation (.text "b") ⟨0x3fe8000000000000⟩,
    sampleAttestation (.text "c") (F64.ofNat 20)]

/-- A witness at 0.375 seconds joins the first two clusters. -/
def sampleFour : List Call :=
  sampleThree ++ [sampleAttestation (.text "d") ⟨0x3fd8000000000000⟩]

/-- A witness at 40 seconds is a third cluster again. -/
def sampleFive : List Call := sampleFour ++ [sampleAttestation (.text "e") (F64.ofNat 40)]

/-- Attestations alone take a final record back to sealed, and announce it twice. -/
theorem finality_reverted :
    (sampleEngine.calls 1 sampleThree).map (·.confirmationLevel sampleRecord) = some .finalized ∧
      (sampleEngine.calls 1 sampleFour).map (·.confirmationLevel sampleRecord) = some .sealed ∧
      (sampleEngine.calls 1 sampleFive).map (·.finalizationQueue) =
        some [sampleRecord, sampleRecord] := by
  decide +kernel

/-- The next step: the first task, or the call if there is none. -/
def Config.next (c : Config) (call : Call) : Config :=
  match c.agenda with
  | [] => ⟨(c.state.start call).1, (c.state.start call).2⟩
  | t :: ts => ⟨(c.state.perform t).1, (c.state.perform t).2 ++ ts⟩

theorem step_next (c : Config) (call : Call) : Step c (c.next call) := by
  obtain ⟨s, _ | ⟨t, ts⟩⟩ := c
  · exact Step.call s call
  · exact Step.task s t ts

/-- The configurations of a run, the first one apart. -/
def Config.follow (c : Config) : List Call → List Config
  | [] => []
  | call :: calls => c.next call :: (c.next call).follow calls

theorem isChain_follow (c : Config) (calls : List Call) :
    List.IsChain Step (c :: c.follow calls) := by
  induction calls generalizing c with
  | nil => exact List.IsChain.singleton c
  | cons call calls ih => exact List.IsChain.cons_cons (step_next c call) (ih (c.next call))

instance (s : AWCConsensus) (r : Str) : Decidable (s.Rederives r) :=
  haveI : Decidable (s.Final r) := inferInstanceAs (Decidable (_ = true))
  inferInstanceAs (Decidable (_ → _))

instance : DecidablePred Config.Rederives
  | ⟨s, .recompute r _ :: _⟩ => inferInstanceAs (Decidable (s.Rederives r))
  | ⟨_, .force _ :: _⟩ => .isTrue trivial
  | ⟨_, []⟩ => .isTrue trivial

instance : DecidablePred Config.Roomy := fun _ => Nat.decLt _ _

/-- Three attestations make the record final, each with a recomputation after it.  One more at 60
seconds is a cluster of its own. -/
def sampleLater : List Call :=
  (sampleThree ++ [sampleAttestation (.text "e") (F64.ofNat 60)]).flatMap fun c => [c, c]

/-- The record is recomputed for the later attestation, and stays final. -/
theorem chain_advances_later :
    ((⟨sampleEngine, []⟩ :: Config.follow ⟨sampleEngine, []⟩ sampleLater).map
      Config.state).Pairwise Advances :=
  (chain_advances_iff (isChain_follow _ _) (by decide +kernel)).mpr (by decide +kernel)

end Sample

end ElaraMesh.Consensus
