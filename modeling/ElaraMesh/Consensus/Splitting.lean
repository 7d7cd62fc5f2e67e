import ElaraMesh.Consensus.Order

/-!
# A witness in several parts

The discount of a witness grows with the number of witnesses that look like it.  So an operator
that spreads the stake of one witness over several with the same profile and at the same place
gains nothing: everybody keeps at least the correlations they had, and the weight of a shared
region only rises with the number of witnesses.

## Main results

* `independenceQ_le_of_corr` — a share falls when the correlations grow.
* `effectiveStakeQ_split_le` — **splitting a witness does not add discounted stake.**
-/

namespace ElaraMesh.Consensus

open Record (Str)

namespace AWCConsensus

/-- Two witnesses with the same profile and the same derived location. -/
structure Alike (s : AWCConsensus) (v w : Str) : Prop where
  profile : s.profiles.lookup v = s.profiles.lookup w
  geo : s.derivedGeo.lookup v = s.derivedGeo.lookup w

variable {s : AWCConsensus}

namespace Alike

variable {v w : Str}

theorem bucketOf_eq (h : s.Alike v w) : s.bucketOf v = s.bucketOf w := by
  unfold bucketOf
  rw [h.profile, h.geo]

theorem correlation_left (h : s.Alike v w) (m : Str) (gamma : ℕ) :
    s.correlationWeightedQ v m gamma = s.correlationWeightedQ w m gamma := by
  unfold correlationWeightedQ
  rw [h.profile, h.geo]

theorem correlation_right (h : s.Alike v w) (m : Str) (gamma : ℕ) :
    s.correlationWeightedQ m v gamma = s.correlationWeightedQ m w gamma := by
  unfold correlationWeightedQ
  rw [h.profile, h.geo]

end Alike

/-! ### The weight of a shared region -/

/-- The weight rises with the number of witnesses. -/
theorem gammaEffectiveScaledQ_mono {n n' : ℕ} (h : n ≤ n') (buckets : ℕ) :
    gammaEffectiveScaledQ n buckets ≤ gammaEffectiveScaledQ n' buckets := by
  unfold gammaEffectiveScaledQ gammaFullWitnesses minGeoBuckets gammaQ
  dsimp only
  split_ifs <;> omega

variable {gamma gamma' : ℕ} {w : Str}

theorem correlationWeightedQ_mono (h : gamma ≤ gamma') (a b : Str) :
    s.correlationWeightedQ a b gamma ≤ s.correlationWeightedQ a b gamma' := by
  unfold correlationWeightedQ
  cases s.profiles.lookup a with
  | none => simp
  | some pa =>
    cases s.profiles.lookup b with
    | none => simp
    | some pb =>
      dsimp only
      split_ifs <;> omega

/-- Parts that look like the witness are in its region. -/
theorem gammaEffectiveQ_split {parts : List Str} (hne : parts ≠ [])
    (halike : ∀ v ∈ parts, s.Alike v w) (rest : List Str) :
    s.gammaEffectiveQ (w :: rest) ≤ s.gammaEffectiveQ (parts ++ rest) := by
  have hpos : 0 < parts.length := List.length_pos_iff.mpr hne
  have hbuckets : s.bucketCount (parts ++ rest) = s.bucketCount (w :: rest) := by
    unfold bucketCount
    congr 1
    ext b
    simp only [List.mem_toFinset, List.mem_filterMap, List.mem_append, List.mem_cons]
    constructor
    · rintro ⟨v, hv | hv, hb⟩
      · exact ⟨w, .inl rfl, (halike v hv).bucketOf_eq ▸ hb⟩
      · exact ⟨v, .inr hv, hb⟩
    · rintro ⟨v, rfl | hv, hb⟩
      · obtain ⟨u, hu⟩ := List.exists_mem_of_ne_nil parts hne
        exact ⟨u, .inl hu, (halike u hu).bucketOf_eq.trans hb⟩
      · exact ⟨v, .inr hv, hb⟩
  unfold gammaEffectiveQ
  rw [hbuckets]
  refine gammaEffectiveScaledQ_mono ?_ _
  simp only [List.length_cons, List.length_append]
  omega

/-! ### The shares -/

/-- What a witness has in common with the others of a set. -/
def corrSum (s : AWCConsensus) (w : Str) (set : List Str) (gamma : ℕ) : ℕ :=
  ((set.filter (· ≠ w)).map fun m => s.correlationWeightedQ w m gamma).sum

/-- A share falls when the correlations grow. -/
theorem independenceQ_le_of_corr {v : Str} {set set' : List Str}
    (h : s.corrSum w set gamma ≤ s.corrSum v set' gamma') :
    s.independenceQ v set' gamma' ≤ s.independenceQ w set gamma := by
  unfold corrSum at h
  rw [independenceQ_eq, independenceQ_eq]
  refine Nat.div_le_div_left ?_ (Nat.add_pos_left (by decide) _)
  omega

theorem corrSum_cons (w m : Str) (set : List Str) (gamma : ℕ) :
    s.corrSum w (m :: set) gamma =
      (if m = w then 0 else s.correlationWeightedQ w m gamma) + s.corrSum w set gamma := by
  unfold corrSum
  by_cases h : m = w
  · simp [h]
  · simp [h]

theorem corrSum_append (w : Str) (l₁ l₂ : List Str) (gamma : ℕ) :
    s.corrSum w (l₁ ++ l₂) gamma = s.corrSum w l₁ gamma + s.corrSum w l₂ gamma := by
  simp [corrSum]

/-- A part has no less in common with the rest than the whole. -/
theorem corrSum_alike {v : Str} (h : s.Alike v w) (hgamma : gamma ≤ gamma')
    {set : List Str} (hv : v ∉ set) : s.corrSum w set gamma ≤ s.corrSum v set gamma' := by
  induction set with
  | nil => exact le_rfl
  | cons m set ih =>
    obtain ⟨hvm, hset⟩ := List.ne_and_not_mem_of_not_mem_cons hv
    rw [corrSum_cons, corrSum_cons, if_neg hvm.symm, h.correlation_left]
    refine Nat.add_le_add ?_ (ih hset)
    split
    · exact Nat.zero_le _
    · exact correlationWeightedQ_mono hgamma w m

theorem corrSum_mono (hgamma : gamma ≤ gamma') (w : Str) (set : List Str) :
    s.corrSum w set gamma ≤ s.corrSum w set gamma' :=
  List.sum_le_sum fun m _ => correlationWeightedQ_mono hgamma w m

/-- Another witness has no less in common with the parts than with the whole. -/
theorem le_corrSum_parts {m : Str} {parts : List Str} (hne : parts ≠ [])
    (halike : ∀ v ∈ parts, s.Alike v w) (hm : m ∉ parts)
    (hgamma : gamma ≤ gamma') : s.correlationWeightedQ m w gamma ≤ s.corrSum m parts gamma' := by
  obtain ⟨v, parts, rfl⟩ := List.exists_cons_of_ne_nil hne
  obtain ⟨hmv, -⟩ := List.ne_and_not_mem_of_not_mem_cons hm
  rw [corrSum_cons, if_neg hmv.symm, (halike v List.mem_cons_self).correlation_right]
  exact (correlationWeightedQ_mono hgamma m w).trans (Nat.le_add_right _ _)

/-! ### The discounted stake -/

theorem satMul_le_satMul {a b c : ℕ} (h : b ≤ c) : U128.satMul a b ≤ U128.satMul a c := by
  have := Nat.mul_le_mul_left a h
  unfold U128.satMul
  omega

/-- Parts with a share each that is at most the share of the whole. -/
theorem sum_satMul_le (share : Str → ℕ) (whole : ℕ) (parts : List (Str × ℕ))
    (h : ∀ p ∈ parts, share p.1 ≤ whole) :
    (parts.map fun p => U128.satMul p.2 (share p.1)).sum ≤ (parts.map Prod.snd).sum * whole := by
  rw [← List.sum_map_mul_right]
  refine List.sum_le_sum fun p hp => ?_
  exact (Nat.min_le_left _ _).trans (Nat.mul_le_mul_left _ (h p hp))

/-- **Splitting a witness does not help.**  Of a set of witnesses, one is replaced by several that
look like it and have its stake between them; the discounted stake of the set does not grow. -/
theorem effectiveStakeQ_split_le (s : AWCConsensus) {before after rest parts : List (Str × ℕ)}
    {w : Str} {stake : ℕ} (hbefore : before.Perm ((w, stake) :: rest))
    (hafter : after.Perm (parts ++ rest)) (hne : parts ≠ [])
    (hset : (before.map Prod.fst).Nodup) (hset' : (after.map Prod.fst).Nodup)
    (halike : ∀ p ∈ parts, s.Alike p.1 w) (hstake : (parts.map Prod.snd).sum = stake) :
    s.effectiveStakeQ after ≤ s.effectiveStakeQ before := by
  rw [effectiveStakeQ_perm (SameSetup.refl s) hbefore,
    effectiveStakeQ_perm (SameSetup.refl s) hafter]
  have hnodup := (hbefore.map Prod.fst).nodup hset
  have hnodup' := (hafter.map Prod.fst).nodup hset'
  rw [List.map_append] at hnodup'
  rw [List.map_cons, List.nodup_cons] at hnodup
  have hdisjoint := List.disjoint_of_nodup_append hnodup'
  have hnames : parts.map Prod.fst ≠ [] := fun h => hne (List.map_eq_nil_iff.mp h)
  have halike' : ∀ v ∈ parts.map Prod.fst, s.Alike v w := by
    intro v hv
    obtain ⟨p, hp, rfl⟩ := List.mem_map.mp hv
    exact halike p hp
  rw [effectiveStakeQ_eq, effectiveStakeQ_eq]
  simp only [List.map_append, List.map_cons, List.sum_append, List.sum_cons]
  -- no share grows, neither that of a part nor that of another witness
  have hgamma := gammaEffectiveQ_split hnames halike' (rest.map Prod.fst)
  generalize s.gammaEffectiveQ (w :: rest.map Prod.fst) = gamma at hgamma ⊢
  generalize s.gammaEffectiveQ (parts.map Prod.fst ++ rest.map Prod.fst) = gamma' at hgamma ⊢
  have hparts := sum_satMul_le
    (fun v => s.independenceQ v (parts.map Prod.fst ++ rest.map Prod.fst) gamma')
    (s.independenceQ w (w :: rest.map Prod.fst) gamma) parts fun p hp => by
      have hmem := List.mem_map_of_mem (f := Prod.fst) hp
      refine independenceQ_le_of_corr ?_
      rw [corrSum_cons, if_pos rfl, Nat.zero_add, corrSum_append]
      exact (corrSum_alike (halike p hp) hgamma (hdisjoint hmem)).trans (Nat.le_add_left _ _)
  have hrest : (rest.map fun p => U128.satMul p.2 (s.independenceQ p.1
        (parts.map Prod.fst ++ rest.map Prod.fst) gamma')).sum ≤
      (rest.map fun p => U128.satMul p.2 (s.independenceQ p.1
        (w :: rest.map Prod.fst) gamma)).sum := by
    refine List.sum_le_sum fun p hp => satMul_le_satMul (independenceQ_le_of_corr ?_)
    have hmem := List.mem_map_of_mem (f := Prod.fst) hp
    have hw : w ≠ p.1 := fun h => hnodup.1 (h ▸ hmem)
    rw [corrSum_cons, if_neg hw, corrSum_append]
    refine Nat.add_le_add ?_ (corrSum_mono hgamma p.1 _)
    exact le_corrSum_parts hnames halike' (fun h => hdisjoint h hmem) hgamma
  rw [hstake] at hparts
  unfold U128.satMul at hparts hrest ⊢
  omega

/-- Three unknown witnesses, one of which attests as two. -/
theorem effectiveStakeQ_split_two :
    AWCConsensus.new.Alike (Str.text "y") (Str.text "x") ∧
    AWCConsensus.new.effectiveStakeQ
        [(Str.text "y", 1), (Str.text "z", 3), (Str.text "u", 5), (Str.text "v", 6)] ≤
      AWCConsensus.new.effectiveStakeQ
        [(Str.text "x", 4), (Str.text "u", 5), (Str.text "v", 6)] := by
  refine ⟨⟨rfl, rfl⟩, @effectiveStakeQ_split_le AWCConsensus.new _ _
    [(Str.text "u", 5), (Str.text "v", 6)] [(Str.text "y", 1), (Str.text "z", 3)] (Str.text "x") 4
    (List.Perm.refl _) (List.Perm.refl _) (List.cons_ne_nil _ _) ?_ ?_ ?_ rfl⟩
  · decide +kernel
  · decide +kernel
  · exact fun _ _ => ⟨rfl, rfl⟩

end AWCConsensus

end ElaraMesh.Consensus
