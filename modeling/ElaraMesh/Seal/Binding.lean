import ElaraMesh.Seal.Merkle

/-!
# What the root of a seal binds

From wire version 7 on a node is hashed under a tag that no record starts with, so a node
cannot be taken for a record.  As long as SHA3-256 tells apart the bytes that are hashed, the
root of a seal determines the list of its hashes, and a path that leads to the root starts
from one of them.

## Main results

* `sealRoot_binds` — equal roots are roots of equal lists, and what is accepted with a path of
  any length is in the list.
-/

namespace ElaraMesh.Seal

open Ledger (ProofSibling foldV2MinWireVersion sealFoldV2NodeTag verifySealInclusionProof)
open Record.ValidationRecord (domainTagRecordV1)
open Smt (Sha3 sha3_256 Bytes32)
open MerkleTree

section Binds

variable [Sha3]

def nodeInput (p : Bytes32 × Bytes32) : List UInt8 := sealFoldV2NodeTag ++ (p.1.data ++ p.2.data)

def hashesOf (preimages : List (List UInt8)) : List Bytes32 := preimages.map sha3_256

/-- The bytes that are hashed for the root over records. -/
def sealInputs (preimages : List (List UInt8)) : List (List UInt8) :=
  preimages ++ (nodePairs (combineTagged sealFoldV2NodeTag) (hashesOf preimages)).map nodeInput

/-- The bytes that are hashed along a path from a record. -/
def pathInputs (preimage : List UInt8) (path : List (Bytes32 × Bool)) : List (List UInt8) :=
  preimage :: (Merkle.climbPairs (combineTagged sealFoldV2NodeTag) (sha3_256 preimage) path).map
    nodeInput

/-- The bytes are those of a record. -/
def IsRecord (preimage : List UInt8) : Prop := domainTagRecordV1 <+: preimage

omit [Sha3] in
theorem nodeInput_injective : Function.Injective nodeInput :=
  fun _ _ h => eq_of_data_append_eq (List.append_cancel_left h)

omit [Sha3] in
theorem not_isRecord_nodeInput (p : Bytes32 × Bytes32) : ¬ IsRecord (nodeInput p) := by
  intro h
  have hpre : domainTagRecordV1 <+: sealFoldV2NodeTag := by
    refine List.prefix_of_prefix_length_le h (List.prefix_append _ _) ?_
    decide +kernel
  exact absurd hpre (by decide +kernel)

variable {preimages : List (List UInt8)}

/-- Bytes that are told apart bind the nodes of a tree over records. -/
theorem binding_of_injOn {inputs : List (List UInt8)} {pairs : Set (Bytes32 × Bytes32)}
    (hinj : Set.InjOn sha3_256 {x | x ∈ inputs})
    (hpairs : ∀ p ∈ pairs, nodeInput p ∈ inputs) (hpreimages : ∀ x ∈ preimages, x ∈ inputs)
    (hrecords : ∀ x ∈ preimages, IsRecord x) :
    Merkle.Binding (combineTagged sealFoldV2NodeTag) pairs {h | h ∈ hashesOf preimages} where
  injOn p hp q hq h := nodeInput_injective (hinj (hpairs p hp) (hpairs q hq) h)
  apart p hp h := by
    obtain ⟨x, hx, heq⟩ := List.mem_map.mp h
    have hnode := hinj (hpreimages x hx) (hpairs p hp) heq
    exact not_isRecord_nodeInput p (hnode ▸ hrecords x hx)

theorem hashesOf_ne_nil (h : preimages ≠ []) :
    hashesOf preimages ≠ [] := mt List.map_eq_nil_iff.mp h

/-- A path that leads from a record to the root of a list starts from a hash of the list. -/
theorem mem_of_climb {preimage : List UInt8}
    {path : List (Bytes32 × Bool)} (hne : preimages ≠ []) (hrecords : ∀ x ∈ preimages, IsRecord x)
    (hrecord : IsRecord preimage)
    (hinj : Set.InjOn sha3_256 {x | x ∈ sealInputs preimages ++ pathInputs preimage path})
    (hclimb : Merkle.climb (combineTagged sealFoldV2NodeTag) (sha3_256 preimage) path =
      root (combineTagged sealFoldV2NodeTag) (hashesOf preimages)) :
    sha3_256 preimage ∈ hashesOf preimages := by
  obtain ⟨t, hleaves, hroot, hpairs⟩ := exists_root_tree (combineTagged sealFoldV2NodeTag)
    (hashesOf_ne_nil hne)
  have hbinding : Merkle.Binding (combineTagged sealFoldV2NodeTag)
      {p | nodeInput p ∈ sealInputs preimages ++ pathInputs preimage path}
      {h | h ∈ hashesOf (preimage :: preimages)} := by
    refine binding_of_injOn hinj (fun p hp => hp) (fun x hx => ?_) fun x hx => ?_
    · rcases List.mem_cons.mp hx with rfl | hx
      · exact List.mem_append_right _ List.mem_cons_self
      · exact List.mem_append_left _ (List.mem_append_left _ hx)
    · rcases List.mem_cons.mp hx with rfl | hx
      · exact hrecord
      · exact hrecords x hx
  rw [← hleaves]
  refine hbinding.mem_leaves List.mem_cons_self (fun q hq => ?_) (fun q hq => ?_) (fun b hb => ?_)
    (hclimb.trans hroot)
  · exact List.mem_append_right _ (List.mem_cons_of_mem _ (List.mem_map_of_mem hq))
  · exact List.mem_append_left _ (List.mem_append_right _ (List.mem_map_of_mem (hpairs q hq)))
  · rw [hleaves] at hb
    exact List.mem_cons_of_mem _ hb

theorem hashes_eq_of_root_eq {preimages' : List (List UInt8)} (hne : preimages ≠ [])
    (hne' : preimages' ≠ []) (hrecords : ∀ x ∈ preimages, IsRecord x)
    (hrecords' : ∀ x ∈ preimages', IsRecord x)
    (hinj : Set.InjOn sha3_256 {x | x ∈ sealInputs preimages ++ sealInputs preimages'})
    (heq : root (combineTagged sealFoldV2NodeTag) (hashesOf preimages) =
      root (combineTagged sealFoldV2NodeTag) (hashesOf preimages')) :
    hashesOf preimages = hashesOf preimages' := by
  obtain ⟨t, hleaves, hroot, hpairs⟩ := exists_root_tree (combineTagged sealFoldV2NodeTag)
    (hashesOf_ne_nil hne)
  obtain ⟨t', hleaves', hroot', hpairs'⟩ := exists_root_tree (combineTagged sealFoldV2NodeTag)
    (hashesOf_ne_nil hne')
  have hbinding : Merkle.Binding (combineTagged sealFoldV2NodeTag)
      {p | nodeInput p ∈ sealInputs preimages ++ sealInputs preimages'}
      {h | h ∈ hashesOf (preimages ++ preimages')} := by
    refine binding_of_injOn hinj (fun p hp => hp) (fun x hx => ?_) fun x hx => ?_
    · exact (List.mem_append.mp hx).elim
        (fun h => List.mem_append_left _ (List.mem_append_left _ h))
        fun h => List.mem_append_right _ (List.mem_append_left _ h)
    · exact (List.mem_append.mp hx).elim (hrecords x) (hrecords' x)
  have hground : hashesOf (preimages ++ preimages') = hashesOf preimages ++ hashesOf preimages' :=
    List.map_append
  have htrees : t = t' := by
    refine hbinding.tree_eq (fun p hp => ?_) (fun p hp => ?_) (fun a ha => ?_) (fun a ha => ?_)
      (hroot.symm.trans (heq.trans hroot'))
    · exact List.mem_append_left _ (List.mem_append_right _ (List.mem_map_of_mem (hpairs p hp)))
    · exact List.mem_append_right _ (List.mem_append_right _ (List.mem_map_of_mem (hpairs' p hp)))
    · exact hground ▸ List.mem_append_left _ (hleaves ▸ ha)
    · exact hground ▸ List.mem_append_right _ (hleaves' ▸ ha)
  rw [← hleaves, ← hleaves', htrees]

/-- The root of a seal of version 7 or later over records determines the hashes and their
order, and what either way to verify accepts for a record, with a path of any length, is one
of them. -/
theorem sealRoot_binds (version : UInt16) (hversion : foldV2MinWireVersion ≤ version)
    (preimages : List (List UInt8)) (hne : preimages ≠ [])
    (hrecords : ∀ x ∈ preimages, IsRecord x) :
    (∀ preimages' : List (List UInt8), preimages' ≠ [] → (∀ x ∈ preimages', IsRecord x) →
      Set.InjOn sha3_256 {x | x ∈ sealInputs preimages ++ sealInputs preimages'} →
      sealRootFor version (hashesOf preimages) = sealRootFor version (hashesOf preimages') →
      hashesOf preimages = hashesOf preimages') ∧
    (∀ (preimage : List UInt8) (proof : MerkleProof), IsRecord preimage →
      proof.leaf = sha3_256 preimage → proof.root = sealRootFor version (hashesOf preimages) →
      Set.InjOn sha3_256
        {x | x ∈ sealInputs preimages ++ pathInputs preimage (proof.siblings.map nodeStep)} →
      verifySealProofFor version proof = true → sha3_256 preimage ∈ hashesOf preimages) ∧
    (∀ (preimage : List UInt8) (siblings : List ProofSibling), IsRecord preimage →
      Set.InjOn sha3_256
        {x | x ∈ sealInputs preimages ++ pathInputs preimage (siblings.map siblingStep)} →
      verifySealInclusionProof version (sha3_256 preimage) siblings
        (sealRootFor version (hashesOf preimages)) = true →
      sha3_256 preimage ∈ hashesOf preimages) := by
  have hcombine : combineFor version = combineTagged sealFoldV2NodeTag := if_pos hversion
  have hroot : ∀ hashes, sealRootFor version hashes =
      root (combineTagged sealFoldV2NodeTag) hashes := by
    intro hashes
    unfold sealRootFor
    rw [hcombine]
  refine ⟨?_, ?_, ?_⟩
  · intro preimages' hne' hrecords' hinj heq
    rw [hroot, hroot] at heq
    exact hashes_eq_of_root_eq hne hne' hrecords hrecords' hinj heq
  · intro preimage proof hrecord hleaf hproofRoot hinj hverify
    have hzero : version ≠ 0 := by
      rintro rfl
      exact absurd hversion (by decide)
    unfold verifySealProofFor at hverify
    rw [if_neg hzero, if_pos hversion, Bool.and_eq_true] at hverify
    have hclimb := verifyProof_iff.mp hverify.2
    rw [hleaf, hproofRoot, hroot] at hclimb
    exact mem_of_climb hne hrecords hrecord hinj hclimb
  · intro preimage siblings hrecord hinj hverify
    have hclimb := verifySealInclusionProof_iff.mp hverify
    rw [hcombine, hroot] at hclimb
    exact mem_of_climb hne hrecords hrecord hinj hclimb

end Binds

section Fixed

attribute [local instance] Smt.guardedSha3

def twoRecords : List (List UInt8) := [domainTagRecordV1 ++ [1], domainTagRecordV1 ++ [2]]

def firstPath : List ProofSibling := [⟨sha3_256 (domainTagRecordV1 ++ [2]), true⟩]

/-- The root over two records binds them, and the path of the first of them is accepted. -/
theorem sealRoot_binds_twoRecords :
    hashesOf twoRecords = hashesOf twoRecords ∧
      sha3_256 (domainTagRecordV1 ++ [1]) ∈ hashesOf twoRecords := by
  have hrecords : ∀ x ∈ twoRecords, IsRecord x := by
    intro x hx
    obtain rfl | rfl := List.mem_pair.mp hx <;> exact List.prefix_append _ _
  have hnodup : ((sealInputs twoRecords).map sha3_256).Nodup := by decide +kernel
  have hinj : Set.InjOn sha3_256 {x | x ∈ sealInputs twoRecords} := fun x hx y hy h =>
    List.inj_on_of_nodup_map hnodup hx hy h
  have hpath : ∀ x ∈ pathInputs (domainTagRecordV1 ++ [1]) (firstPath.map siblingStep),
      x ∈ sealInputs twoRecords := by decide +kernel
  obtain ⟨hlists, -, hmember⟩ := sealRoot_binds 7 (by decide) twoRecords (List.cons_ne_nil _ _) hrecords
  refine ⟨hlists twoRecords (List.cons_ne_nil _ _) hrecords (hinj.mono fun x hx => ?_) rfl,
    hmember _ firstPath (List.prefix_append _ _) (hinj.mono fun x hx => ?_) (by decide +kernel)⟩
  · exact (List.mem_append.mp hx).elim id id
  · exact (List.mem_append.mp hx).elim id (hpath x)

end Fixed

end ElaraMesh.Seal
