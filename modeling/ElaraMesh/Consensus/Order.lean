import ElaraMesh.Consensus.Finality
import ElaraMesh.Consensus.Quorum

/-!
# The order of attestations

Attestations reach the nodes in different orders.  The level that the attestations of a
record give does not depend on their order, but on the levels of its parents in other zones
at the time of the last recomputation, and a parent that falls takes nobody along.  As long
as no parent falls, and the links between zones have no cycle, every order ends with the
same levels.

## Main results

* `recomputedLevel_perm` — the level that a recomputation gives does not depend on the order
  of the attestations.
* `Feeding.feedWhile` — after a feed without falling parents every level is the one that the
  attestations and the parents give.
* `feed_levels_eq` — two orders end with the same levels.
-/

namespace ElaraMesh.Consensus

open Record (Str)
open Smt (Sha3)
open AWCConsensus

/-! ### What a level depends on -/

/-- The engines agree on all that a level depends on, but for attestations and levels. -/
structure SameSetup (s t : AWCConsensus) : Prop where
  zoneCount : s.zoneCount = t.zoneCount
  zoneStakes : s.zoneStakes = t.zoneStakes
  profiles : s.profiles = t.profiles
  derivedGeo : s.derivedGeo = t.derivedGeo
  anchored : s.anchored = t.anchored
  creatorStakes : s.creatorStakes = t.creatorStakes
  creatorIdentity : s.creatorIdentity = t.creatorIdentity
  rotationZoneOverrides : s.rotationZoneOverrides = t.rotationZoneOverrides
  crossZoneParents : s.crossZoneParents = t.crossZoneParents
  committeeStakes : s.committeeStakes = t.committeeStakes
  committeeMembers : s.committeeMembers = t.committeeMembers
  livenessDecayEnabled : s.livenessDecayEnabled = t.livenessDecayEnabled

namespace SameSetup

variable {s t u : AWCConsensus}

theorem refl (s : AWCConsensus) : SameSetup s s :=
  ⟨rfl, rfl, rfl, rfl, rfl, rfl, rfl, rfl, rfl, rfl, rfl, rfl⟩

theorem symm (h : SameSetup s t) : SameSetup t s :=
  ⟨h.1.symm, h.2.symm, h.3.symm, h.4.symm, h.5.symm, h.6.symm, h.7.symm, h.8.symm, h.9.symm,
    h.10.symm, h.11.symm, h.12.symm⟩

theorem trans (h : SameSetup s t) (h' : SameSetup t u) : SameSetup s u :=
  ⟨h.1.trans h'.1, h.2.trans h'.2, h.3.trans h'.3, h.4.trans h'.4, h.5.trans h'.5,
    h.6.trans h'.6, h.7.trans h'.7, h.8.trans h'.8, h.9.trans h'.9, h.10.trans h'.10,
    h.11.trans h'.11, h.12.trans h'.12⟩

variable [Sha3]

theorem settlementZoneFor_eq (h : SameSetup s t) (r : Str) :
    s.settlementZoneFor r = t.settlementZoneFor r := by
  unfold settlementZoneFor zoneForRecord
  rw [h.rotationZoneOverrides, h.zoneCount]

/-- Without decay the eligible stake is part of the setup. -/
theorem eligibleStake_eq (h : SameSetup s t) (hoff : t.livenessDecayEnabled = false) (r : Str) :
    s.eligibleStake r = t.eligibleStake r := by
  have hdecayed : ∀ zone, s.decayedZoneStake zone = t.decayedZoneStake zone := by
    intro zone
    unfold decayedZoneStake
    rw [h.livenessDecayEnabled, hoff, h.zoneStakes]
    rfl
  unfold eligibleStake settlementDenominator creatorStakeExcludedFromDenominator
  dsimp only
  rw [h.settlementZoneFor_eq, h.committeeStakes, h.committeeMembers, h.creatorStakes,
    h.creatorIdentity, hdecayed]

end SameSetup

/-! ### Permuted attestations -/

section Perm

variable {s t : AWCConsensus}

theorem closeInTime_comm (a b : Attestation) : closeInTime a b = closeInTime b a := by
  unfold closeInTime
  rw [F64.abs_sub_comm]

theorem sameProfile_comm (s : AWCConsensus) (a b : Attestation) :
    s.sameProfile a b = s.sameProfile b a := by
  unfold sameProfile
  cases s.profiles.lookup a.witnessHash with
  | none => cases s.profiles.lookup b.witnessHash <;> rfl
  | some p =>
    cases s.profiles.lookup b.witnessHash with
    | none => rfl
    | some q =>
      dsimp only
      rw [BEq.comm (a := p.organization), BEq.comm (a := p.subnet)]

/-- What joins two attestations does not depend on which comes first. -/
theorem links_comm (s : AWCConsensus) :
    ∀ rel ∈ [s.sameProfile, closeInTime], ∀ a b, rel a b = rel b a := by
  intro rel hrel a b
  rcases List.mem_pair.mp hrel with rfl | rfl
  · exact sameProfile_comm s a b
  · exact closeInTime_comm a b

theorem countDistinctClusters_perm (h : SameSetup s t) {l₁ l₂ : List Attestation}
    (hperm : l₁.Perm l₂) :
    s.countDistinctClusters l₁ = t.countDistinctClusters l₂ := by
  have hprofile : s.sameProfile = t.sameProfile := by
    funext a b
    unfold sameProfile
    rw [h.profiles]
  unfold countDistinctClusters
  rw [hprofile]
  exact DisjointSets.clusterCount_perm (links_comm t) hperm

/-- The share of a witness, with the correlations as a sum. -/
theorem independenceQ_eq (s : AWCConsensus) (w : Str) (set : List Str) (gamma : ℕ) :
    s.independenceQ w set gamma = settlementQ * settlementQ / (settlementQ +
      min (((set.filter (· ≠ w)).map fun m => s.correlationWeightedQ w m gamma).sum)
        U128.max) := by
  unfold independenceQ
  dsimp only
  rw [U128.foldl_satAdd _ _ (Nat.zero_le _), Nat.zero_add]

/-- The discounted stake as a sum over the witnesses in any order. -/
theorem effectiveStakeQ_eq (s : AWCConsensus) (l : List (Str × ℕ)) :
    s.effectiveStakeQ l = min ((l.map fun w => U128.satMul w.2 (s.independenceQ w.1
      (l.map Prod.fst) (s.gammaEffectiveQ (l.map Prod.fst)))).sum) U128.max := by
  unfold effectiveStakeQ
  dsimp only
  rw [U128.foldl_satAdd _ _ (Nat.zero_le _), Nat.zero_add,
    ((List.perm_insertionSort (fun a b : Str × ℕ => a.1 ≤ b.1) l).map _).sum_eq]

theorem independenceQ_perm (h : SameSetup s t) (w : Str) {l₁ l₂ : List Str} (hperm : l₁.Perm l₂)
    (gamma : ℕ) : s.independenceQ w l₁ gamma = t.independenceQ w l₂ gamma := by
  have hcorr : s.correlationWeightedQ = t.correlationWeightedQ := by
    funext a b g
    unfold correlationWeightedQ
    rw [h.profiles, h.derivedGeo]
  rw [independenceQ_eq, independenceQ_eq, hcorr, ((hperm.filter _).map _).sum_eq]

theorem gammaEffectiveQ_perm (h : SameSetup s t) {l₁ l₂ : List Str} (hperm : l₁.Perm l₂) :
    s.gammaEffectiveQ l₁ = t.gammaEffectiveQ l₂ := by
  have hbucket : s.bucketOf = t.bucketOf := by
    funext w
    unfold bucketOf
    rw [h.profiles, h.derivedGeo]
  unfold gammaEffectiveQ bucketCount
  rw [hbucket, hperm.length_eq, List.toFinset_eq_of_perm _ _ (hperm.filterMap _)]

/-- The discounted stake does not depend on the order of the witnesses. -/
theorem effectiveStakeQ_perm (h : SameSetup s t) {l₁ l₂ : List (Str × ℕ)} (hperm : l₁.Perm l₂) :
    s.effectiveStakeQ l₁ = t.effectiveStakeQ l₂ := by
  have hterm : ∀ w : Str × ℕ, s.independenceQ w.1 (l₁.map Prod.fst)
      (s.gammaEffectiveQ (l₁.map Prod.fst)) = t.independenceQ w.1 (l₂.map Prod.fst)
        (t.gammaEffectiveQ (l₂.map Prod.fst)) := by
    intro w
    rw [gammaEffectiveQ_perm h (hperm.map Prod.fst), independenceQ_perm h w.1 (hperm.map Prod.fst)]
  rw [effectiveStakeQ_eq, effectiveStakeQ_eq, List.map_congr_left fun w _ => by rw [hterm w],
    (hperm.map _).sum_eq]

variable [Sha3]

theorem settlementOk_perm (h : SameSetup s t) (hoff : t.livenessDecayEnabled = false) {r : Str}
    (hperm : (s.attestationsOf r).Perm (t.attestationsOf r)) :
    s.settlementOk r = t.settlementOk r := by
  have hnil : s.attestationsOf r = [] ↔ t.attestationsOf r = [] := by
    rw [← List.length_eq_zero_iff, hperm.length_eq, List.length_eq_zero_iff]
  have hdiverse : s.isSettledDiverse r = t.isSettledDiverse r := by
    unfold isSettledDiverse
    dsimp only
    rw [h.eligibleStake_eq hoff, effectiveStakeQ_perm h (hperm.map _)]
    simp only [hnil]
  have hraw : s.isSettled r = t.isSettled r := by
    unfold isSettled attestingStake
    rw [h.eligibleStake_eq hoff, (hperm.map _).sum_eq]
  have hsmall : s.smallNetwork = t.smallNetwork := by
    unfold smallNetwork
    rw [h.profiles]
  unfold settlementOk
  rw [hdiverse, hraw, hsmall]

/-- The level of a record does not depend on the order of its attestations. -/
theorem recomputedLevel_perm (h : SameSetup s t) (hoff : t.livenessDecayEnabled = false) {r : Str}
    (hperm : (s.attestationsOf r).Perm (t.attestationsOf r))
    (hparents : s.crossZoneParentsFinalized r = t.crossZoneParentsFinalized r) :
    s.recomputedLevel r = t.recomputedLevel r := by
  have hconfirms : s.confirms r = t.confirms r := by
    unfold confirms
    dsimp only
    rw [hparents, settlementOk_perm h hoff hperm, countDistinctClusters_perm h hperm,
      hperm.length_eq]
  unfold recomputedLevel evaluatedLevel
  have hnil : s.attestationsOf r = [] ↔ t.attestationsOf r = [] := by
    rw [← List.length_eq_zero_iff, hperm.length_eq, List.length_eq_zero_iff]
  rw [hconfirms, h.anchored, hperm.length_eq]
  simp only [hnil]

end Perm

/-! ### Feeding -/

/-- Is the record a parent of another one in a different zone? -/
def AWCConsensus.isParent (s : AWCConsensus) (r : Str) : Bool :=
  s.crossZoneParents.entries.any fun e => r ∈ e.2

section Feed

variable [Sha3]

/-- A recomputation leaves a final parent final. -/
def AWCConsensus.parentKept (s : AWCConsensus) (r : Str) : Bool :=
  !((s.confirmationLevel r).isFinal && s.isParent r) || (s.recomputedLevel r).isFinal

variable [Iteration]

/-- Perform all tasks, as long as a condition holds at each recomputation. -/
def drainWhile (ok : AWCConsensus → Str → Bool) :
    ℕ → AWCConsensus → List Task → Option AWCConsensus
  | _, s, [] => some s
  | 0, _, _ :: _ => none
  | fuel + 1, s, .recompute r sup :: tasks =>
    if ok s r then
      drainWhile ok fuel (s.perform (.recompute r sup)).1
        ((s.perform (.recompute r sup)).2 ++ tasks)
    else none
  | fuel + 1, s, .force r :: tasks =>
    drainWhile ok fuel (s.perform (.force r)).1 ((s.perform (.force r)).2 ++ tasks)

/-- Feed attestations one after another, as long as the condition holds. -/
def feedWhile (ok : AWCConsensus → Str → Bool) (fuel : ℕ) (s : AWCConsensus)
    (atts : List Attestation) : Option AWCConsensus :=
  atts.foldlM (fun s a => drainWhile ok fuel (s.addAttestation a).1 (s.addAttestation a).2) s

end Feed

/-! ### What a recomputation leaves alone -/

/-- The engines agree on all that a level depends on, but for levels. -/
structure SameInputs (s t : AWCConsensus) : Prop extends SameSetup s t where
  attestations : s.attestations = t.attestations

theorem SameInputs.refl (s : AWCConsensus) : SameInputs s s := ⟨SameSetup.refl s, rfl⟩

variable {s t : AWCConsensus}

theorem SameInputs.trans {u : AWCConsensus} (h : SameInputs s t) (h' : SameInputs t u) :
    SameInputs s u :=
  ⟨h.toSameSetup.trans h'.toSameSetup, h.attestations.trans h'.attestations⟩

theorem SameInputs.attestationsOf_eq (h : SameInputs s t) (r : Str) :
    s.attestationsOf r = t.attestationsOf r := by
  unfold attestationsOf
  rw [h.attestations]

theorem sameInputs_setLevel (s : AWCConsensus) (r : Str) (l : ConfirmationLevel) :
    SameInputs s (s.setLevel r l) :=
  { SameInputs.refl s with }

theorem sameInputs_countBoost (s : AWCConsensus) (r : Str) (l : ConfirmationLevel) :
    SameInputs s (s.countBoost r l) := by
  unfold countBoost
  split
  · exact { SameInputs.refl s with }
  · exact SameInputs.refl s

theorem sameInputs_announce (s : AWCConsensus) (sup : Bool) (r : Str)
    (old new : ConfirmationLevel) : SameInputs s (s.announce sup r old new) := by
  have hsealed : SameInputs s (s.announceSealed sup r old new) := by
    unfold announceSealed enqueueSealed
    split
    · split <;> exact { SameInputs.refl s with }
    · exact SameInputs.refl s
  unfold announce
  dsimp only
  split
  · refine hsealed.trans ?_
    unfold enqueueFinalized
    split <;> exact { SameInputs.refl _ with }
  · exact hsealed

theorem sameInputs_visit [Sha3] [Iteration] (s : AWCConsensus) (sup : Bool) (r : Str) :
    SameInputs s (s.visit sup r).1 := by
  unfold visit
  split
  · exact sameInputs_setLevel s r _
  · split
    · exact sameInputs_setLevel s r _
    · exact ((sameInputs_countBoost s r _).trans (sameInputs_setLevel _ r _)).trans
        (sameInputs_announce _ sup r _ _)

/-! ### Links between zones -/

/-- `p` is a parent of `c` in another zone. -/
def AWCConsensus.Parent (s : AWCConsensus) (p c : Str) : Prop :=
  ∃ parents, s.crossZoneParents.lookup c = some parents ∧ p ∈ parents

/-- The links between zones can be numbered upwards. -/
def Acyclic (s : AWCConsensus) : Prop := ∃ rank : Str → ℕ, ∀ p c, s.Parent p c → rank p < rank c

theorem Acyclic.irrefl (h : Acyclic s) (r : Str) : ¬ s.Parent r r := by
  obtain ⟨rank, hrank⟩ := h
  exact fun hr => (hrank r r hr).false

theorem mem_children [Iteration] {r c : Str} :
    c ∈ s.children r ↔ s.Parent r c := by
  unfold children Parent
  rw [List.mem_map]
  constructor
  · rintro ⟨⟨c', parents⟩, hmem, rfl⟩
    obtain ⟨hwalk, hr⟩ := List.mem_filter.mp hmem
    exact ⟨parents, Iteration.mem_walk.mp hwalk, of_decide_eq_true hr⟩
  · rintro ⟨parents, hlookup, hr⟩
    exact ⟨(c, parents), List.mem_filter.mpr ⟨Iteration.mem_walk.mpr hlookup, decide_eq_true hr⟩, rfl⟩

theorem isParent_of_parent {p c : Str} (h : s.Parent p c) :
    s.isParent p = true := by
  obtain ⟨parents, hlookup, hp⟩ := h
  exact List.any_eq_true.mpr ⟨⟨c, parents⟩, AList.mem_lookup_iff.mp hlookup, decide_eq_true hp⟩

/-- The boost of a record depends on the finality of its parents. -/
theorem crossZoneParentsFinalized_congr (hlinks : s.crossZoneParents = t.crossZoneParents) {r : Str}
    (h : ∀ p, s.Parent p r → (s.confirmationLevel p).isFinal = (t.confirmationLevel p).isFinal) :
    s.crossZoneParentsFinalized r = t.crossZoneParentsFinalized r := by
  unfold crossZoneParentsFinalized
  rw [← hlinks]
  cases hlookup : s.crossZoneParents.lookup r with
  | none => rfl
  | some parents =>
    dsimp only
    have hall : (parents.all fun p => (s.confirmationLevel p).isFinal) =
        parents.all fun p => (t.confirmationLevel p).isFinal := by
      rw [Bool.eq_iff_iff, List.all_eq_true, List.all_eq_true]
      exact forall₂_congr fun p hp => by rw [h p ⟨parents, hlookup, hp⟩]
    rw [hall]

/-! ### The invariant of a feed -/

/-- An engine before the first attestation, without decay and with links that can be
numbered upwards. -/
structure Fresh (s : AWCConsensus) : Prop where
  attestations : s.attestations = ∅
  confirmationLevels : s.confirmationLevels = ∅
  anchored : s.anchored = ∅
  decay_off : s.livenessDecayEnabled = false
  acyclic : Acyclic s

/-- The attestations of a record among those that were fed, without those of its creator. -/
def accepted (s₀ : AWCConsensus) (fed : List Attestation) (r : Str) : List Attestation :=
  fed.filter fun a => a.recordId = r ∧ s₀.creatorIdentity.lookup a.recordId ≠ some a.witnessHash

/-- Attestations with different pairs of record and witness. -/
def Distinct (atts : List Attestation) : Prop :=
  (atts.map fun a => (a.recordId, a.witnessHash)).Nodup

section Invariant

variable [Sha3]

/-- During a feed, the level of every record that is not about to be recomputed is the one
that its attestations and its parents give. -/
structure Feeding (s₀ s : AWCConsensus) (agenda : List Task) (fed : List Attestation) : Prop where
  setup : SameSetup s₀ s
  atts : ∀ r, s.attestationsOf r = accepted s₀ fed r
  keys : ∀ k ∈ s.attestations, k ∈ fed.map Attestation.recordId
  recomputes : ∀ t ∈ agenda, ∃ r, t = .recompute r false
  levels : ∀ r, .recompute r false ∈ agenda ∨ s.confirmationLevel r = s.recomputedLevel r

variable {s₀ s : AWCConsensus} {r : Str} {fed : List Attestation} {a : Attestation}

theorem Feeding.start (h : Fresh s₀) : Feeding s₀ s₀ [] [] := by
  have hnone : ∀ r, s₀.attestationsOf r = [] := by
    intro r
    unfold attestationsOf
    rw [h.attestations]
    rfl
  refine ⟨SameSetup.refl s₀, hnone, ?_, fun t ht => (List.not_mem_nil ht).elim, fun r => Or.inr ?_⟩
  · rw [h.attestations]
    exact fun k hk => absurd hk (AList.notMem_empty k)
  · unfold recomputedLevel confirmationLevel
    rw [if_pos (hnone r), h.confirmationLevels]
    rfl

/-- The level of a record changes only with its attestations and the finality of its
parents. -/
theorem recomputedLevel_congr {t : AWCConsensus} (h : SameInputs s t)
    (hoff : t.livenessDecayEnabled = false)
    (hparents : ∀ p, s.Parent p r →
      (s.confirmationLevel p).isFinal = (t.confirmationLevel p).isFinal) :
    s.recomputedLevel r = t.recomputedLevel r := by
  refine recomputedLevel_perm h.toSameSetup hoff ?_
    (crossZoneParentsFinalized_congr h.crossZoneParents hparents)
  rw [h.attestationsOf_eq]

variable [Iteration]

/-- A record that becomes final has its children recomputed. -/
theorem children_of_rise {sup : Bool} (hanch : r ∉ s.anchored)
    (hold : (s.confirmationLevel r).isFinal = false)
    (hnew : (s.recomputedLevel r).isFinal = true) :
    ∀ c, s.Parent r c → c ∈ (s.visit sup r).2 := by
  intro c hc
  unfold recomputedLevel at hnew
  unfold visit
  split at hnew
  · cases hnew
  · next hatts =>
    rw [if_neg hatts, if_neg hanch]
    dsimp only
    rw [if_pos ⟨hnew, by simp [hold]⟩]
    refine mem_children.mpr ?_
    have hlinks := ((sameInputs_countBoost s r (s.evaluatedLevel r)).trans
      (sameInputs_setLevel _ r (s.evaluatedLevel r))).crossZoneParents
    unfold Parent at hc ⊢
    rwa [← hlinks]

/-- A recomputation of `r` matters to another record only if `r` is its parent and rises
or falls. -/
theorem recomputedLevel_visit (hoff : s.livenessDecayEnabled = false) {q : Str}
    (h : s.Parent r q → (s.confirmationLevel r).isFinal = (s.recomputedLevel r).isFinal) :
    (s.visit false r).1.recomputedLevel q = s.recomputedLevel q := by
  have hsame := sameInputs_visit s false r
  symm
  refine recomputedLevel_congr hsame (hsame.livenessDecayEnabled ▸ hoff) fun p hp => ?_
  rw [confirmationLevel_visit]
  split
  · next hpr =>
    rw [hpr] at hp ⊢
    exact h hp
  · rfl

/-- After a recomputation of `r` under which no parent falls, a record that was right is
right or about to be recomputed. -/
theorem right_or_child {q : Str} (hoff : s.livenessDecayEnabled = false)
    (hanch : r ∉ s.anchored) (hok : s.parentKept r = true)
    (hright : s.confirmationLevel q = s.recomputedLevel q) :
    q ∈ (s.visit false r).2 ∨
      s.confirmationLevel q = (s.visit false r).1.recomputedLevel q := by
  by_cases hchild : s.Parent r q
  · cases hold : (s.confirmationLevel r).isFinal with
    | true =>
      have hnew : (s.recomputedLevel r).isFinal = true := by
        unfold parentKept at hok
        rw [hold, isParent_of_parent hchild] at hok
        exact hok
      exact Or.inr (hright.trans
        (recomputedLevel_visit hoff fun _ => hold.trans hnew.symm).symm)
    | false =>
      cases hnew : (s.recomputedLevel r).isFinal with
      | true => exact Or.inl (children_of_rise hanch hold hnew q hchild)
      | false =>
        exact Or.inr (hright.trans
          (recomputedLevel_visit hoff fun _ => hold.trans hnew.symm).symm)
  · exact Or.inr (hright.trans
      (recomputedLevel_visit hoff fun hp => absurd hp hchild).symm)

/-- A recomputation under which no parent falls keeps the invariant. -/
theorem Feeding.recompute {tasks : List Task} (hfresh : Fresh s₀)
    (h : Feeding s₀ s (.recompute r false :: tasks) fed) (hok : s.parentKept r = true) :
    Feeding s₀ (s.perform (.recompute r false)).1
      ((s.perform (.recompute r false)).2 ++ tasks) fed := by
  have hsame := sameInputs_visit s false r
  have hoff : s.livenessDecayEnabled = false := by
    rw [← h.setup.livenessDecayEnabled, hfresh.decay_off]
  have hanch : r ∉ s.anchored := by
    rw [← h.setup.anchored, hfresh.anchored]
    exact Finset.notMem_empty r
  have hself : ¬ s.Parent r r := by
    have hirrefl := hfresh.acyclic.irrefl r
    unfold Parent at hirrefl ⊢
    rwa [← h.setup.crossZoneParents]
  refine ⟨h.setup.trans hsame.toSameSetup, ?_, ?_, ?_, ?_⟩
  · intro q
    exact (hsame.attestationsOf_eq q).symm.trans (h.atts q)
  · intro k hk
    refine h.keys k ?_
    rw [hsame.attestations]
    exact hk
  · intro t ht
    rcases List.mem_append.mp ht with ht | ht
    · obtain ⟨c, _, rfl⟩ := List.mem_map.mp ht
      exact ⟨c, rfl⟩
    · exact h.recomputes t (List.mem_cons_of_mem _ ht)
  · intro q
    change _ ∨ (s.visit false r).1.confirmationLevel q = (s.visit false r).1.recomputedLevel q
    rw [confirmationLevel_visit]
    by_cases hqr : q = r
    · right
      rw [if_pos hqr, hqr, recomputedLevel_visit hoff fun hp => absurd hp hself]
    · rw [if_neg hqr]
      rcases h.levels q with hmem | hright
      · rcases List.mem_cons.mp hmem with heq | hmem
        · exact absurd (by injection heq) hqr
        · exact Or.inl (List.mem_append_right _ hmem)
      · refine (right_or_child hoff hanch hok hright).imp_left fun hchild => ?_
        exact List.mem_append_left _ (List.mem_map_of_mem hchild)

omit [Sha3] [Iteration] in
theorem accepted_append (s₀ : AWCConsensus) (fed : List Attestation) (a : Attestation) (r : Str) :
    accepted s₀ (fed ++ [a]) r =
      if a.recordId = r ∧ s₀.creatorIdentity.lookup a.recordId ≠ some a.witnessHash then
        accepted s₀ fed r ++ [a]
      else accepted s₀ fed r := by
  unfold accepted
  rw [List.filter_append]
  split
  · next h => rw [List.filter_cons_of_pos (by simpa using h), List.filter_nil]
  · next h => rw [List.filter_cons_of_neg (by simpa using h), List.filter_nil, List.append_nil]

omit [Sha3] [Iteration] in
theorem sameSetup_admitAttestation (s : AWCConsensus) (a : Attestation) :
    SameSetup s (s.admitAttestation a).1 := by
  unfold admitAttestation
  dsimp only
  split
  · exact { SameSetup.refl s with }
  · split <;> exact { SameSetup.refl s with }

omit [Sha3] [Iteration] in
theorem confirmationLevel_admitAttestation (s : AWCConsensus) (a : Attestation) (r : Str) :
    (s.admitAttestation a).1.confirmationLevel r = s.confirmationLevel r := by
  unfold admitAttestation
  dsimp only
  split
  · rfl
  · split <;> rfl

omit [Sha3] [Iteration] in
theorem mem_attestations_admitAttestation {k : Str}
    (h : k ∈ (s.admitAttestation a).1.attestations) : k = a.recordId ∨ k ∈ s.attestations := by
  unfold admitAttestation at h
  dsimp only at h
  split at h
  · exact Or.inr h
  · split at h <;> exact (AList.mem_insert _).mp h

omit [Iteration] in
/-- A new witness is not among those of its record. -/
theorem Feeding.unknown {agenda : List Task}
    (h : Feeding s₀ s agenda fed) (hfed : Distinct (fed ++ [a])) :
    ¬ (s.attestationsOf a.recordId).any (fun b => b.witnessHash = a.witnessHash) = true := by
  intro hany
  obtain ⟨b, hb, hw⟩ := List.any_eq_true.mp hany
  rw [h.atts] at hb
  obtain ⟨hmem, hcond⟩ := List.mem_filter.mp hb
  have hrec := (of_decide_eq_true hcond).1
  have hpair : (a.recordId, a.witnessHash) ∈ fed.map fun a => (a.recordId, a.witnessHash) :=
    List.mem_map.mpr ⟨b, hmem, by rw [hrec, of_decide_eq_true hw]⟩
  unfold Distinct at hfed
  rw [List.map_append, List.nodup_append'] at hfed
  exact hfed.2.2 hpair (List.mem_singleton_self _)

omit [Sha3] [Iteration] in
theorem tasks_admitAttestation
    (hnew : ¬ (s.attestationsOf a.recordId).any (fun b => b.witnessHash = a.witnessHash) = true) :
    (s.admitAttestation a).2 =
      if s.creatorIdentity.lookup a.recordId = some a.witnessHash then []
      else [.recompute a.recordId false] := by
  unfold admitAttestation
  dsimp only
  rw [if_neg hnew]
  split <;> rfl

omit [Iteration] in
/-- An attestation with a new pair of record and witness keeps the invariant. -/
theorem Feeding.admitted
    (hfresh : Fresh s₀) (hfed : Distinct (fed ++ [a])) (h : Feeding s₀ s [] fed) :
    Feeding s₀ (s.admitAttestation a).1 (s.admitAttestation a).2 (fed ++ [a]) := by
  have hsame := sameSetup_admitAttestation s a
  have hoff : (s.admitAttestation a).1.livenessDecayEnabled = false := by
    rw [← hsame.livenessDecayEnabled, ← h.setup.livenessDecayEnabled, hfresh.decay_off]
  have hunknown := h.unknown hfed
  have hatts : ∀ r, (s.admitAttestation a).1.attestationsOf r = accepted s₀ (fed ++ [a]) r := by
    intro r
    rw [attestationsOf_admitAttestation, accepted_append, acceptedEntry, if_neg hunknown,
      h.setup.creatorIdentity]
    by_cases hr : r = a.recordId
    · rw [if_pos hr, hr, ← h.atts]
      by_cases hself : s.creatorIdentity.lookup a.recordId = some a.witnessHash
      · rw [if_pos hself, if_neg fun hc => hc.2 hself]
      · rw [if_neg hself, if_pos ⟨rfl, hself⟩]
    · rw [if_neg hr, if_neg fun hc => hr hc.1.symm, h.atts]
  -- a record whose attestations stay is right as it was
  have hkeep : ∀ q, (s.admitAttestation a).1.attestationsOf q = s.attestationsOf q →
      (s.admitAttestation a).1.confirmationLevel q =
        (s.admitAttestation a).1.recomputedLevel q := by
    intro q hq
    rw [confirmationLevel_admitAttestation, (h.levels q).resolve_left List.not_mem_nil]
    refine recomputedLevel_perm hsame hoff (by rw [hq])
      (crossZoneParentsFinalized_congr hsame.crossZoneParents fun p _ => ?_)
    rw [confirmationLevel_admitAttestation]
  have htasks := tasks_admitAttestation hunknown
  refine ⟨h.setup.trans hsame, hatts, ?_, ?_, ?_⟩
  · intro k hk
    rw [List.map_append, List.mem_append]
    rcases mem_attestations_admitAttestation hk with rfl | hk
    · exact Or.inr (List.mem_singleton_self _)
    · exact Or.inl (h.keys k hk)
  · intro t ht
    rw [htasks] at ht
    split at ht
    · cases ht
    · exact ⟨_, List.mem_singleton.mp ht⟩
  · intro q
    rw [htasks]
    by_cases hself : s.creatorIdentity.lookup a.recordId = some a.witnessHash
    · right
      refine hkeep q ?_
      rw [attestationsOf_admitAttestation, acceptedEntry, if_pos hself]
      split
      · next hq => rw [hq]
      · rfl
    · rw [if_neg hself]
      by_cases hq : q = a.recordId
      · exact Or.inl (List.mem_singleton.mpr (by rw [hq]))
      · exact Or.inr (hkeep q (by rw [attestationsOf_admitAttestation, if_neg hq]))

/-- Finishing the tasks of a feed keeps the invariant, if no parent falls. -/
theorem Feeding.drainWhile {s' : AWCConsensus} (hfresh : Fresh s₀)
    {fuel : ℕ} {tasks : List Task} (h : Feeding s₀ s tasks fed)
    (hrun : drainWhile parentKept fuel s tasks = some s') : Feeding s₀ s' [] fed := by
  induction fuel generalizing s tasks with
  | zero =>
    cases tasks with
    | nil => cases hrun; exact h
    | cons t ts => cases t <;> cases hrun
  | succ fuel ih =>
    cases tasks with
    | nil => cases hrun; exact h
    | cons t ts =>
      obtain ⟨r, rfl⟩ := h.recomputes t List.mem_cons_self
      rw [Consensus.drainWhile] at hrun
      split at hrun
      · next hok => exact ih (h.recompute hfresh hok) hrun
      · cases hrun

omit [Iteration] in
/-- A feed stays below the memory budget if its records do. -/
theorem Feeding.room {agenda : List Task}
    (h : Feeding s₀ s agenda fed) {all : List Attestation} (hsub : fed ⊆ all)
    (hbudget : (all.map Attestation.recordId).toFinset.card < maxAttestationRecords) :
    s.attestations.entries.length < maxAttestationRecords := by
  refine lt_of_le_of_lt ?_ hbudget
  have hlength : s.attestations.entries.length = s.attestations.keys.toFinset.card := by
    rw [List.toFinset_card_of_nodup s.attestations.keys_nodup]
    exact (List.length_map _).symm
  rw [hlength]
  refine Finset.card_le_card fun k hk => ?_
  obtain ⟨b, hb, hbk⟩ := List.mem_map.mp (h.keys k (List.mem_toFinset.mp hk))
  exact List.mem_toFinset.mpr (List.mem_map.mpr ⟨b, hsub hb, hbk⟩)

/-- A whole feed keeps the invariant, if no parent falls. -/
theorem Feeding.feedWhile {s₀ s s' : AWCConsensus} {fed rest : List Attestation} (hfresh : Fresh s₀)
    (hfed : Distinct (fed ++ rest))
    (hbudget : ((fed ++ rest).map Attestation.recordId).toFinset.card < maxAttestationRecords)
    {fuel : ℕ} (h : Feeding s₀ s [] fed) (hrun : feedWhile parentKept fuel s rest = some s') :
    Feeding s₀ s' [] (fed ++ rest) := by
  induction rest generalizing s fed with
  | nil =>
    cases hrun
    rw [List.append_nil]
    exact h
  | cons a rest ih =>
    obtain ⟨t, ht, hrest⟩ := Option.bind_eq_some_iff.mp hrun
    have hsplit : fed ++ a :: rest = (fed ++ [a]) ++ rest := by
      rw [List.append_assoc, List.singleton_append]
    rw [hsplit] at hfed hbudget ⊢
    have hfirst : Distinct (fed ++ [a]) := by
      unfold Distinct at hfed ⊢
      rw [List.map_append] at hfed
      exact hfed.of_append_left
    have hroom := h.room (fun b hb => List.mem_append_left _ (List.mem_append_left _ hb)) hbudget
    have hadd : s.addAttestation a = s.admitAttestation a := if_neg (Nat.not_le.mpr hroom)
    beta_reduce at ht
    rw [hadd] at ht
    exact ih hfed hbudget ((h.admitted hfresh hfirst).drainWhile hfresh ht) hrest

end Invariant

/-! ### Two orders -/

theorem accepted_perm (s₀ : AWCConsensus) {l₁ l₂ : List Attestation} (h : l₁.Perm l₂) (r : Str) :
    (accepted s₀ l₁ r).Perm (accepted s₀ l₂ r) := h.filter _

/-- Two engines that are right everywhere, with the same attestations, have the same
levels: the parents of a record come before it. -/
theorem levels_eq_of_feeding [Sha3] {s₀ s₁ s₂ : AWCConsensus} {l₁ l₂ : List Attestation}
    (hfresh : Fresh s₀) (hperm : l₁.Perm l₂) (h₁ : Feeding s₀ s₁ [] l₁)
    (h₂ : Feeding s₀ s₂ [] l₂) (r : Str) : s₁.confirmationLevel r = s₂.confirmationLevel r := by
  obtain ⟨rank, hrank⟩ := hfresh.acyclic
  have hsame : SameSetup s₁ s₂ := h₁.setup.symm.trans h₂.setup
  have hoff : s₂.livenessDecayEnabled = false := by
    rw [← h₂.setup.livenessDecayEnabled, hfresh.decay_off]
  induction hn : rank r using Nat.strong_induction_on generalizing r with
  | _ n ih =>
    rw [(h₁.levels r).resolve_left List.not_mem_nil, (h₂.levels r).resolve_left List.not_mem_nil]
    refine recomputedLevel_perm hsame hoff ?_
      (crossZoneParentsFinalized_congr hsame.crossZoneParents fun p hp => ?_)
    · rw [h₁.atts, h₂.atts]
      exact accepted_perm s₀ hperm r
    · have hp₀ : s₀.Parent p r := by
        unfold Parent at hp ⊢
        rwa [h₁.setup.crossZoneParents]
      rw [ih (rank p) (hn ▸ hrank p r hp₀) p rfl]

/-- Two nodes that are fed the same attestations in different orders, and on which no final
parent of a record in another zone falls, end with the same levels. -/
theorem feed_levels_eq [Sha3] (it₁ it₂ : Iteration) {s₀ s₁ s₂ : AWCConsensus} (hfresh : Fresh s₀)
    {l₁ l₂ : List Attestation} (hperm : l₁.Perm l₂) (hdist : Distinct l₁)
    (hbudget : (l₁.map Attestation.recordId).toFinset.card < maxAttestationRecords)
    {fuel₁ fuel₂ : ℕ} (h₁ : @feedWhile _ it₁ parentKept fuel₁ s₀ l₁ = some s₁)
    (h₂ : @feedWhile _ it₂ parentKept fuel₂ s₀ l₂ = some s₂) (r : Str) :
    s₁.confirmationLevel r = s₂.confirmationLevel r := by
  have hdist₂ : Distinct l₂ := (hperm.map _).nodup hdist
  have hbudget₂ : (l₂.map Attestation.recordId).toFinset.card < maxAttestationRecords := by
    rwa [← List.toFinset_eq_of_perm _ _ (hperm.map Attestation.recordId)]
  have hend₁ := @Feeding.feedWhile _ it₁ s₀ s₀ s₁ [] l₁ hfresh hdist hbudget fuel₁
    (Feeding.start hfresh) h₁
  have hend₂ := @Feeding.feedWhile _ it₂ s₀ s₀ s₂ [] l₂ hfresh hdist₂ hbudget₂ fuel₂
    (Feeding.start hfresh) h₂
  exact levels_eq_of_feeding hfresh hperm hend₁ hend₂ r

/-! ### A child that keeps what its parent lost -/

section Sample

attribute [local instance] Smt.guardedSha3 Iteration.stored

def parentRecord : Str := .text "p"

def childRecord : Str := .text "c"

/-- One zone with a stake of 45, and two linked records of creators without stake. -/
def linkedEngine : AWCConsensus :=
  let s := registerStakes { AWCConsensus.new with zoneCount := 1 } 45 [] 1
  let s := (registerCreatorStake s parentRecord (.text "k") 0).1
  let s := (registerCreatorStake s childRecord (.text "k") 0).1
  s.registerCrossZoneParents childRecord [parentRecord]

/-- The parent is attested at 0, 0.75 and 20 seconds, by three clusters. -/
def parentAttestations : List Attestation :=
  [⟨parentRecord, .text "a", 10, F64.zero⟩,
    ⟨parentRecord, .text "b", 10, ⟨0x3fe8000000000000⟩⟩,
    ⟨parentRecord, .text "c", 10, F64.ofNat 20⟩]

/-- The child is attested at 0 and 20 seconds, by two clusters. -/
def childAttestations : List Attestation :=
  [⟨childRecord, .text "a", 10, F64.zero⟩,
    ⟨childRecord, .text "b", 10, F64.zero⟩,
    ⟨childRecord, .text "c", 10, F64.ofNat 20⟩]

/-- A fourth witness joins two of the clusters of the parent, at 0.375 seconds. -/
def joining : Attestation := ⟨parentRecord, .text "d", 10, ⟨0x3fd8000000000000⟩⟩

/-- Feed attestations and read the level of the child. -/
def childLevel (atts : List Attestation) : Option ConfirmationLevel :=
  (linkedEngine.calls 2 (atts.map .addAttestation)).map (·.confirmationLevel childRecord)

theorem parent_linkedEngine {p c : Str} (h : linkedEngine.Parent p c) :
    p = parentRecord ∧ c = childRecord := by
  obtain ⟨parents, hlookup, hp⟩ := h
  have hlinks : linkedEngine.crossZoneParents.lookup c =
      if c = childRecord then some [parentRecord] else none :=
    Table.lookup_insert_eq ∅ childRecord c [parentRecord]
  rw [hlinks] at hlookup
  split at hlookup
  · rename_i hc
    cases hlookup
    exact ⟨List.mem_singleton.mp hp, hc⟩
  · cases hlookup

theorem fresh_linkedEngine : Fresh linkedEngine where
  attestations := rfl
  confirmationLevels := rfl
  anchored := rfl
  decay_off := rfl
  acyclic := by
    refine ⟨fun r => if r = parentRecord then 0 else 1, fun p c h => ?_⟩
    obtain ⟨rfl, rfl⟩ := parent_linkedEngine h
    decide +kernel

/-- Attested at the same times, the two records end alike whichever is attested first. -/
theorem feed_levels_eq_of_swap : ∃ s₁ s₂,
    feedWhile parentKept 2 linkedEngine (parentAttestations ++ childAttestations) = some s₁ ∧
      feedWhile parentKept 2 linkedEngine (childAttestations ++ parentAttestations) = some s₂ ∧
      s₁.confirmationLevel childRecord = s₂.confirmationLevel childRecord := by
  have hsome₁ : (feedWhile parentKept 2 linkedEngine
      (parentAttestations ++ childAttestations)).isSome := by decide +kernel
  have hsome₂ : (feedWhile parentKept 2 linkedEngine
      (childAttestations ++ parentAttestations)).isSome := by decide +kernel
  obtain ⟨s₁, h₁⟩ := Option.isSome_iff_exists.mp hsome₁
  obtain ⟨s₂, h₂⟩ := Option.isSome_iff_exists.mp hsome₂
  have hdist : Distinct (parentAttestations ++ childAttestations) := by
    unfold Distinct
    decide +kernel
  refine ⟨s₁, s₂, h₁, h₂, ?_⟩
  exact feed_levels_eq Iteration.stored Iteration.stored fresh_linkedEngine List.perm_append_comm
    hdist (by decide +kernel) h₁ h₂ childRecord

/-- A fourth attestation of the parent makes it fall.  The child is final if it is attested
before that, and sealed if it is attested afterwards. -/
theorem order_dependent :
    Fresh linkedEngine ∧ Distinct (parentAttestations ++ childAttestations ++ [joining]) ∧
      (parentAttestations ++ childAttestations ++ [joining]).Perm
        (parentAttestations ++ [joining] ++ childAttestations) ∧
      childLevel (parentAttestations ++ childAttestations ++ [joining]) = some .finalized ∧
      childLevel (parentAttestations ++ [joining] ++ childAttestations) = some .sealed := by
  refine ⟨fresh_linkedEngine, ?_, ?_, ?_, ?_⟩
  · unfold Distinct
    decide +kernel
  · rw [List.append_assoc, List.append_assoc]
    exact List.Perm.append_left _ List.perm_append_comm
  · decide +kernel
  · decide +kernel

end Sample

end ElaraMesh.Consensus
