import ElaraMesh.Lib.Multimap
import ElaraMesh.Record.Record
import ElaraMesh.Zones.Committee
import Mathlib.Data.Nat.Sqrt

/-!
# The committee of a zone for an epoch

The committee is drawn from the stakers that subscribe to the zone; if they are too few, from
the stakers with the most stake.  The reference goes through the list of stakers for every zone.
The version in use builds an index of the stakers once, and goes through the subscribers of each
zone, in the order in which a hash set gives them.

## Main results

* `finish_perm` — the draw from a pool does not depend on its order.
* `perm_eligible` — both versions have the same pool of subscribers.
* `indexed_eq_reference` — both versions select the same committee.
-/

namespace ElaraMesh.Consensus

open Draw (sortBy Keyed)
open Framing (ofBigEndian)
open Record (Str ZoneId)
open Smt (Sha3 sha3_256)
open Zones (committeeSmallNetwork)

/-- The fewest subscribers to draw from. -/
def minScopedEligible : ℕ := 3

def mainnetCommitteeSize : ℕ := 7

/-- The most stakers to draw from when there are too few subscribers. -/
def bootstrapFallbackCap : ℕ := 64

/-- Stakers in the order of their stake, the largest first. -/
def stakeOrder (e : Str × ℕ) : ℕᵒᵈ ×ₗ Str := toLex (OrderDual.toDual e.2, e.1)

def topStakers (stakedWeighted : List (Str × ℕ)) : List (Str × ℕ) :=
  (sortBy stakeOrder stakedWeighted).take bootstrapFallbackCap

/-- A staker with its number divided by the root of its stake. -/
structure Scored where
  priority : ℕ
  identity : Str
  stake : ℕ
  deriving DecidableEq

def Scored.rank (e : Scored) : ℕ ×ₗ Str := toLex (e.priority, e.identity)

section Selection

variable [Sha3]

/-- The number of a staker; without stake it is not divided. -/
def score (vrfOutput : List UInt8) (zone : ZoneId) (e : Str × ℕ) : Scored where
  priority := ofBigEndian ((sha3_256 (vrfOutput ++ zone.path ++ e.1.bytes)).data.take 16) /
    max (Nat.sqrt e.2) 1
  identity := e.1
  stake := e.2

/-- Everybody from a small pool, and otherwise those with the smallest numbers, in the order of
their identities. -/
def finish (vrfOutput : List UInt8) (zone : ZoneId) (pool : List (Str × ℕ)) : List (Str × ℕ) :=
  if pool.length ≤ committeeSmallNetwork then sortBy Prod.fst pool
  else
    let scored := pool.map (score vrfOutput zone)
    sortBy Prod.fst (((sortBy Scored.rank scored).take mainnetCommitteeSize).map fun e =>
      (e.identity, e.stake))

def selectEpochCommitteeScoped (vrfOutput : List UInt8) (stakedWeighted : List (Str × ℕ))
    (zone : ZoneId) (subscribers : Finset Str) : List (Str × ℕ) :=
  if stakedWeighted = [] then []
  else if vrfOutput = [] then stakedWeighted
  else
    let eligible := stakedWeighted.filter fun e => e.1 ∈ subscribers
    let pool :=
      if eligible.length < minScopedEligible then
        if stakedWeighted.length ≤ bootstrapFallbackCap then stakedWeighted
        else topStakers stakedWeighted
      else eligible
    finish vrfOutput zone pool

/-- What is prepared once for all zones. -/
structure CommitteeSelectionIndex where
  stakedIndex : Table Str ℕ
  bootstrapPool : List (Str × ℕ)

def CommitteeSelectionIndex.build (stakedWeighted : List (Str × ℕ)) : CommitteeSelectionIndex where
  stakedIndex := stakedWeighted.foldl (fun index e => index.insert e.1 e.2) ∅
  bootstrapPool := topStakers stakedWeighted

def selectEpochCommitteeScopedIndexed [SetWalk Str] (vrfOutput : List UInt8)
    (index : CommitteeSelectionIndex) (zone : ZoneId) (subscribers : Finset Str) :
    List (Str × ℕ) :=
  if index.stakedIndex.entries = [] then []
  else if vrfOutput = [] then sortBy Prod.fst index.bootstrapPool
  else
    let eligible := (SetWalk.walk subscribers).filterMap fun id =>
      (index.stakedIndex.lookup id).map fun stake => (id, stake)
    let pool := if eligible.length < minScopedEligible then index.bootstrapPool else eligible
    finish vrfOutput zone pool

/-! ### The draw from a pool -/

theorem finish_perm {vrfOutput : List UInt8} {zone : ZoneId} {pool pool' : List (Str × ℕ)}
    (h : Keyed Prod.fst pool) (hperm : pool.Perm pool') :
    finish vrfOutput zone pool = finish vrfOutput zone pool' := by
  have hrank : Keyed Scored.rank (pool.map (score vrfOutput zone)) := by
    refine List.Nodup.of_map (fun rank : ℕ ×ₗ Str => (ofLex rank).2) ?_
    rw [List.map_map, List.map_map]
    exact h
  unfold finish
  simp only [hperm.length_eq, Draw.sortBy_congr h hperm,
    Draw.sortBy_congr hrank (hperm.map (score vrfOutput zone))]

variable {staked : List (Str × ℕ)}

omit [Sha3] in
/-- Up to the cap, the stakers with the most stake are all stakers. -/
theorem perm_topStakers (h : staked.length ≤ bootstrapFallbackCap) :
    (topStakers staked).Perm staked := by
  unfold topStakers
  rw [List.take_of_length_le ((Draw.perm_sortBy _ _).length_eq.trans_le h)]
  exact Draw.perm_sortBy _ _

/-! ### The pools -/

omit [Sha3] in
theorem topStakers_congr {staked' : List (Str × ℕ)} (h : Keyed Prod.fst staked)
    (hperm : staked.Perm staked') : topStakers staked = topStakers staked' := by
  have hkeyed : Keyed stakeOrder staked := by
    refine List.Nodup.of_map (fun place : ℕᵒᵈ ×ₗ Str => (ofLex place).2) ?_
    rw [List.map_map]
    exact h
  unfold topStakers
  rw [Draw.sortBy_congr hkeyed hperm]

omit [Sha3] in
theorem entries_build_eq_nil :
    (CommitteeSelectionIndex.build staked).stakedIndex.entries = [] ↔ staked = [] := by
  constructor
  · intro hentries
    by_contra hne
    obtain ⟨e, rest, rfl⟩ := List.exists_cons_of_ne_nil hne
    obtain ⟨stake, hlookup⟩ : ∃ stake,
        (CommitteeSelectionIndex.build (e :: rest)).stakedIndex.lookup e.1 = some stake :=
      Table.exists_lookup_foldl_insert (.inl List.mem_cons_self)
    rw [AList.lookup, hentries] at hlookup
    cases hlookup
  · rintro rfl
    rfl

omit [Sha3] in
theorem lookup_build (h : Keyed Prod.fst staked) {id : Str} {stake : ℕ} :
    (CommitteeSelectionIndex.build staked).stakedIndex.lookup id = some stake ↔
      (id, stake) ∈ staked := by
  constructor
  · intro hlookup
    exact (Table.of_lookup_foldl_insert hlookup).resolve_right nofun
  · intro hmem
    obtain ⟨stake', hlookup⟩ : ∃ stake',
        (CommitteeSelectionIndex.build staked).stakedIndex.lookup id = some stake' :=
      Table.exists_lookup_foldl_insert (.inl (List.mem_map_of_mem hmem))
    have hmem' := (Table.of_lookup_foldl_insert hlookup).resolve_right nofun
    rw [hlookup, (Prod.mk.inj (List.inj_on_of_nodup_map h hmem' hmem rfl)).2]

omit [Sha3] in
/-- The stakers among the subscribers, found from either side. -/
theorem perm_eligible [SetWalk Str] {staked' : List (Str × ℕ)} (h : Keyed Prod.fst staked)
    (hperm : staked.Perm staked') (subscribers : Finset Str) :
    ((SetWalk.walk subscribers).filterMap fun id =>
        ((CommitteeSelectionIndex.build staked').stakedIndex.lookup id).map fun stake =>
          (id, stake)).Perm (staked.filter fun e => e.1 ∈ subscribers) := by
  have hwalk := SetWalk.nodup_walk subscribers
  refine (List.perm_ext_iff_of_nodup ?_ ?_).mpr fun e => ?_
  · refine hwalk.filterMap fun id id' e he he' => ?_
    obtain ⟨stake, -, rfl⟩ := Option.map_eq_some_iff.mp he
    obtain ⟨stake', -, heq⟩ := Option.map_eq_some_iff.mp he'
    exact (Prod.mk.inj heq).1.symm
  · exact (List.Nodup.of_map _ h).filter _
  · rw [List.mem_filterMap, List.mem_filter]
    simp only [Option.map_eq_some_iff, lookup_build (h.perm hperm), ← hperm.mem_iff,
      SetWalk.mem_walk, decide_eq_true_eq]
    constructor
    · rintro ⟨id, hid, stake, hmem, rfl⟩
      exact ⟨hmem, hid⟩
    · rintro ⟨hmem, hid⟩
      exact ⟨e.1, hid, e.2, hmem, rfl⟩

/-- With an output of the random function, the version with an index selects the same committee
as the reference, in whatever orders the stakers are listed and the subscribers are walked. -/
theorem indexed_eq_reference [SetWalk Str] (vrfOutput : List UInt8) (hvrf : vrfOutput ≠ [])
    (staked staked' : List (Str × ℕ)) (hstaked : (staked.map Prod.fst).Nodup)
    (hperm : staked.Perm staked') (zone : ZoneId) (subscribers : Finset Str) :
    selectEpochCommitteeScopedIndexed vrfOutput (CommitteeSelectionIndex.build staked') zone
      subscribers = selectEpochCommitteeScoped vrfOutput staked zone subscribers := by
  have hkeyed : Keyed Prod.fst staked := hstaked
  have heligible := perm_eligible hkeyed hperm subscribers
  unfold selectEpochCommitteeScopedIndexed selectEpochCommitteeScoped
  rw [if_neg hvrf, if_neg hvrf]
  by_cases hnil : staked = []
  · rw [if_pos hnil, if_pos (entries_build_eq_nil.mpr (hnil ▸ hperm).nil_eq.symm)]
  · rw [if_neg hnil, if_neg fun hentries => hnil (entries_build_eq_nil.mp hentries ▸ hperm).eq_nil]
    dsimp only
    rw [heligible.length_eq]
    split
    · show finish vrfOutput zone (topStakers staked') = _
      rw [← topStakers_congr hkeyed hperm]
      split
      · next hcap =>
        exact finish_perm (hkeyed.perm (perm_topStakers hcap).symm) (perm_topStakers hcap)
      · rfl
    · exact finish_perm ((hkeyed.filter _).perm heligible.symm) heligible

end Selection

section Fixed

attribute [local instance] Smt.guardedSha3 SetWalk.sorted

/-- Two stakers in two orders, of whom one subscribes. -/
theorem indexed_eq_reference_pair :
    [(Str.text "a", 4), (Str.text "b", 9)].Perm [(Str.text "b", 9), (Str.text "a", 4)] ∧
      selectEpochCommitteeScopedIndexed [7]
        (CommitteeSelectionIndex.build [(Str.text "b", 9), (Str.text "a", 4)]) ⟨[0x7a]⟩
        {Str.text "a"} =
      selectEpochCommitteeScoped [7] [(Str.text "a", 4), (Str.text "b", 9)] ⟨[0x7a]⟩
        {Str.text "a"} :=
  ⟨List.Perm.swap _ _ _, indexed_eq_reference [7] (List.cons_ne_nil _ _) _ _ (by decide)
    (List.Perm.swap _ _ _) _ _⟩

end Fixed

end ElaraMesh.Consensus
