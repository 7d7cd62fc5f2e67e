import ElaraMesh.Consensus.Order

/-!
# Clusters of witnesses

The engine counts the clusters of the witnesses of a record by joining sets over two passes
through all pairs: first the pairs with one profile, then the pairs that attested at almost the
same time.  What it counts are the connected components of the graph with both kinds of edges.

## Main results

* `countDistinctClusters_components` — **the clusters are connected components**, in whatever
  order the attestations are listed.
-/

namespace ElaraMesh.Consensus

open Record (Str)

namespace AWCConsensus

/-- Two witnesses with known profiles of one organization and one subnet. -/
def ShareProfile (s : AWCConsensus) (v w : Str) : Prop :=
  ∃ p q, s.profiles.lookup v = some p ∧ s.profiles.lookup w = some q ∧
    p.organization = q.organization ∧ p.subnet = q.subnet

/-- The attestations of a list, joined by the profiles of their witnesses and by time. -/
def attestationGraph (s : AWCConsensus) (atts : List Attestation) :
    SimpleGraph (Fin atts.length) :=
  SimpleGraph.fromRel fun i j =>
    s.ShareProfile (atts.get i).witnessHash (atts.get j).witnessHash ∨
      closeInTime (atts.get i) (atts.get j) = true

/-- The witnesses of a list of attestations, joined by their profiles and by the times at which
they attested. -/
def witnessGraph (s : AWCConsensus) (atts : List Attestation) :
    SimpleGraph {w // w ∈ atts.map Attestation.witnessHash} :=
  SimpleGraph.fromRel fun v w =>
    s.ShareProfile v w ∨
      ∃ a ∈ atts, ∃ b ∈ atts, a.witnessHash = v ∧ b.witnessHash = w ∧ closeInTime a b = true

variable {s : AWCConsensus}

theorem sameProfile_iff {a b : Attestation} :
    s.sameProfile a b = true ↔ s.ShareProfile a.witnessHash b.witnessHash := by
  unfold sameProfile ShareProfile
  cases s.profiles.lookup a.witnessHash with
  | none => simp
  | some p =>
    cases s.profiles.lookup b.witnessHash with
    | none => simp
    | some q => simp

theorem linkGraph_eq_attestationGraph (s : AWCConsensus) (atts : List Attestation) :
    DisjointSets.linkGraph [s.sameProfile, closeInTime] atts = s.attestationGraph atts := by
  ext i j
  simp [DisjointSets.linkGraph, attestationGraph, SimpleGraph.fromRel_adj, sameProfile_iff]

/-- If every witness attests once, the attestations are as good as their witnesses. -/
theorem card_attestationGraph {atts : List Attestation}
    (hnodup : (atts.map Attestation.witnessHash).Nodup) :
    Nat.card (s.attestationGraph atts).ConnectedComponent =
      Nat.card (s.witnessGraph atts).ConnectedComponent := by
  have hinj : ∀ {a b : Attestation}, a ∈ atts → b ∈ atts → a.witnessHash = b.witnessHash → a = b :=
    fun ha hb => List.inj_on_of_nodup_map hnodup ha hb
  have hget : Function.Injective atts.get := List.nodup_iff_injective_get.mp hnodup.of_map
  let place : Fin atts.length → {w // w ∈ atts.map Attestation.witnessHash} :=
    fun i => ⟨(atts.get i).witnessHash, List.mem_map_of_mem (List.get_mem atts i)⟩
  have hplace : Function.Bijective place := by
    constructor
    · intro i j hij
      exact hget (hinj (List.get_mem _ _) (List.get_mem _ _) (congrArg Subtype.val hij))
    · rintro ⟨w, hw⟩
      obtain ⟨a, ha, rfl⟩ := List.mem_map.mp hw
      obtain ⟨i, rfl⟩ := List.get_of_mem ha
      exact ⟨i, rfl⟩
  have hclose : ∀ i j, (∃ a ∈ atts, ∃ b ∈ atts, a.witnessHash = (place i).1 ∧
      b.witnessHash = (place j).1 ∧ closeInTime a b = true) ↔
      closeInTime (atts.get i) (atts.get j) = true := by
    intro i j
    constructor
    · rintro ⟨a, ha, b, hb, hi, hj, hab⟩
      rw [← hinj ha (List.get_mem _ _) hi, ← hinj hb (List.get_mem _ _) hj]
      exact hab
    · intro hij
      exact ⟨_, List.get_mem _ i, _, List.get_mem _ j, rfl, rfl, hij⟩
  refine Nat.card_congr (SimpleGraph.Iso.connectedComponentEquiv
    ⟨Equiv.ofBijective place hplace, fun {i j} => ?_⟩)
  simp only [attestationGraph, witnessGraph, SimpleGraph.fromRel_adj, Equiv.ofBijective_apply,
    hclose, hplace.injective.ne_iff]
  rfl

/-- **The clusters of a list of attestations are the connected components** of the graph on it,
in whatever order it is; if no witness is listed twice, they are those of its witnesses. -/
theorem countDistinctClusters_components (s : AWCConsensus) (atts : List Attestation) :
    s.countDistinctClusters atts = Nat.card (s.attestationGraph atts).ConnectedComponent ∧
    (∀ atts', atts.Perm atts' → s.countDistinctClusters atts' = s.countDistinctClusters atts) ∧
    ((atts.map Attestation.witnessHash).Nodup →
      s.countDistinctClusters atts = Nat.card (s.witnessGraph atts).ConnectedComponent) := by
  have hcount : s.countDistinctClusters atts =
      Nat.card (s.attestationGraph atts).ConnectedComponent := by
    rw [← linkGraph_eq_attestationGraph]
    exact DisjointSets.clusterCount_eq_components (links_comm s) atts
  refine ⟨hcount, ?_, ?_⟩
  · intro atts' hperm
    exact DisjointSets.clusterCount_perm (links_comm s) hperm.symm
  · intro hnodup
    rw [hcount, card_attestationGraph hnodup]

end AWCConsensus

end ElaraMesh.Consensus
