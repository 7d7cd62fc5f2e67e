import ElaraMesh.Ledger.CrossZone
import ElaraMesh.Lib.Merkle

/-!
# The tree of a seal

A seal commits to the hashes of its records by the root of a tree.  From wire version 7 on
the nodes of the tree are hashed under a tag; the last node of an odd layer goes up
unchanged, so that a seal over one record has the hash of the record as its root and an
empty path to it.

## Main results

* `MerkleTree.exists_root_tree` — the root is the hash of a tree with the hashes as leaves.
* `MerkleTree.proof_spec` — the path of a hash leads to the root.
* `MerkleTree.verifySealInclusionProof_iff` — the same walk as the transfers between zones do it.
* `MerkleTree.sealProofFor_complete` — the path of a hash is accepted both ways.
-/

namespace ElaraMesh.Seal

open Ledger (ProofSibling foldV2MinWireVersion sealFoldV2NodeTag siblingPair
  verifySealInclusionProof)
open Smt (Sha3 sha3_256 Bytes32)

structure MerkleProofNode where
  hash : Bytes32
  isRight : Bool
  deriving DecidableEq

structure MerkleProof where
  leaf : Bytes32
  siblings : List MerkleProofNode
  root : Bytes32
  /-- The recipe: 1 without a tag, 2 with one. -/
  foldVersion : UInt16
  deriving DecidableEq

namespace MerkleTree

/-- The bytes of two nodes are those of these nodes only. -/
theorem eq_of_data_append_eq {p q : Bytes32 × Bytes32}
    (h : p.1.data ++ p.2.data = q.1.data ++ q.2.data) : p = q := by
  have hlength : p.1.data.length = q.1.data.length := p.1.size_eq.trans q.1.size_eq.symm
  obtain ⟨hleft, hright⟩ := List.append_inj h hlength
  exact Prod.ext (Bytes32.ext hleft) (Bytes32.ext hright)

section Hash

variable [Sha3]

/-- Two nodes without a tag. -/
def combine (left right : Bytes32) : Bytes32 := sha3_256 (left.data ++ right.data)

/-- Two nodes under a tag. -/
def combineTagged (tag : List UInt8) (left right : Bytes32) : Bytes32 :=
  sha3_256 (tag ++ (left.data ++ right.data))

def root (combine : Bytes32 → Bytes32 → Bytes32) : List Bytes32 → Bytes32
  | [] => Bytes32.zero
  | [h] => h
  | hashes => (Merkle.foldUp (Merkle.pairUp combine) hashes.length hashes).headD Bytes32.zero

/-- The path of a hash, from its first occurrence. -/
def proof (combine : Bytes32 → Bytes32 → Bytes32) (foldVersion : UInt16) (hashes : List Bytes32)
    (leaf : Bytes32) : Option MerkleProof :=
  (hashes.idxOf? leaf).map fun idx =>
    { leaf
      siblings := (Merkle.path (Merkle.pairUp combine) hashes.length hashes idx).map fun s =>
        ⟨s.1, s.2⟩
      root := root combine hashes
      foldVersion }

def verifyProof (combine : Bytes32 → Bytes32 → Bytes32) (proof : MerkleProof) : Bool :=
  proof.siblings.foldl (fun current node =>
    if node.isRight then combine current node.hash else combine node.hash current) proof.leaf =
      proof.root

def combineFor (sealWireVersion : UInt16) : Bytes32 → Bytes32 → Bytes32 :=
  if foldV2MinWireVersion ≤ sealWireVersion then combineTagged sealFoldV2NodeTag else combine

def sealRootFor (sealWireVersion : UInt16) (hashes : List Bytes32) : Bytes32 :=
  root (combineFor sealWireVersion) hashes

def sealProofFor (sealWireVersion : UInt16) (hashes : List Bytes32) (leaf : Bytes32) :
    Option MerkleProof :=
  proof (combineFor sealWireVersion) (if foldV2MinWireVersion ≤ sealWireVersion then 2 else 1)
    hashes leaf

/-- A proof is walked only if its recipe is that of the seal; version 0 stands for an unknown
one. -/
def verifySealProofFor (sealWireVersion : UInt16) (proof : MerkleProof) : Bool :=
  if sealWireVersion = 0 then false
  else if foldV2MinWireVersion ≤ sealWireVersion then
    proof.foldVersion = 2 && verifyProof (combineTagged sealFoldV2NodeTag) proof
  else proof.foldVersion ≤ 1 && verifyProof combine proof

/-! ### Roots and paths -/

def nodePairs (combine : Bytes32 → Bytes32 → Bytes32) (hashes : List Bytes32) :
    List (Bytes32 × Bytes32) :=
  Merkle.foldPairs (Merkle.pairUp combine) Merkle.pairsOf hashes.length hashes

section

variable {combine : Bytes32 → Bytes32 → Bytes32} {hashes : List Bytes32}

omit [Sha3] in
theorem foldUp_eq_root (hne : hashes ≠ []) :
    Merkle.foldUp (Merkle.pairUp combine) hashes.length hashes = [root combine hashes] := by
  obtain ⟨t, -, hfold, -⟩ := Merkle.exists_tree combine hne (Nat.le_succ hashes.length)
  match hashes, hne with
  | [h], _ => rfl
  | h :: h' :: rest, _ =>
    unfold root
    dsimp only
    rw [hfold]
    rfl

omit [Sha3] in
/-- The root is the hash of a tree with the hashes as leaves. -/
theorem exists_root_tree (combine : Bytes32 → Bytes32 → Bytes32) (hne : hashes ≠ []) :
    ∃ t : Merkle.Tree Bytes32, t.leaves = hashes ∧ root combine hashes = t.hash combine ∧
      ∀ p ∈ t.pairs combine, p ∈ nodePairs combine hashes := by
  obtain ⟨t, hleaves, hfold, hpairs⟩ := Merkle.exists_tree combine hne (Nat.le_succ hashes.length)
  rw [foldUp_eq_root hne] at hfold
  exact ⟨t, hleaves, List.head_eq_of_cons_eq hfold, hpairs⟩

def nodeStep (node : MerkleProofNode) : Bytes32 × Bool := (node.hash, node.isRight)

omit [Sha3] in
theorem verifyProof_iff {p : MerkleProof} : verifyProof combine p = true ↔
    Merkle.climb combine p.leaf (p.siblings.map nodeStep) = p.root := by
  unfold verifyProof Merkle.climb
  rw [decide_eq_true_iff, List.foldl_map]
  exact Iff.rfl

omit [Sha3] in
/-- The path of a hash of the list leads to the root, and is empty only if there is no other
hash. -/
theorem proof_spec {leaf : Bytes32} (hmem : leaf ∈ hashes) (foldVersion : UInt16) :
    ∃ p, proof combine foldVersion hashes leaf = some p ∧
      Merkle.climb combine leaf (p.siblings.map nodeStep) = root combine hashes ∧
      (p.siblings = [] ↔ hashes.length = 1) := by
  obtain ⟨idx, hidx⟩ := Option.isSome_iff_exists.mp (List.isSome_idxOf?.mpr hmem)
  obtain ⟨hlt, hleaf, -⟩ := List.idxOf?_eq_some_iff.mp hidx
  have hfound : hashes[idx]? = some leaf := List.getElem?_eq_some_iff.mpr ⟨hlt, hleaf⟩
  have hne : hashes ≠ [] := List.ne_nil_of_mem hmem
  have hn : hashes.length ≤ hashes.length + 1 := Nat.le_succ _
  refine ⟨_, congrArg (Option.map _) hidx, ?_, ?_⟩
  · have hclimb := Merkle.climb_path combine hfound hn
    rw [foldUp_eq_root hne] at hclimb
    rw [List.head_eq_of_cons_eq hclimb, List.map_map]
    exact congrArg _ (List.map_id _)
  · rw [List.map_eq_nil_iff]
    exact Merkle.path_eq_nil_iff combine hlt hn

omit [Sha3] in
/-- What a path says of itself. -/
theorem of_proof_eq_some {leaf : Bytes32} {foldVersion : UInt16} {p : MerkleProof}
    (h : proof combine foldVersion hashes leaf = some p) :
    p.leaf = leaf ∧ p.root = root combine hashes ∧ p.foldVersion = foldVersion := by
  obtain ⟨idx, -, rfl⟩ := Option.map_eq_some_iff.mp h
  exact ⟨rfl, rfl, rfl⟩

end

/-! ### Two ways to verify -/

/-- The steps of a path as a transfer keeps it. -/
def siblingStep (s : ProofSibling) : Bytes32 × Bool := (s.hash, s.isRight)

theorem inclusionFoldV2_iff {tag : List UInt8} {leaf root : Bytes32}
    {siblings : List ProofSibling} : Ledger.inclusionFoldV2 tag leaf siblings root = true ↔
      Merkle.climb (combineTagged tag) leaf (siblings.map siblingStep) = root := by
  have hstep : ∀ (current : Bytes32) (s : ProofSibling), sha3_256 (tag ++ siblingPair current s) =
      Merkle.ascend (combineTagged tag) current (siblingStep s) := by
    intro current s
    unfold siblingPair Merkle.ascend combineTagged siblingStep
    split <;> rfl
  unfold Ledger.inclusionFoldV2 Merkle.climb
  rw [List.foldl_map, decide_eq_true_iff]
  simp only [hstep]

theorem inclusionFoldV1_iff {leaf root : Bytes32} {siblings : List ProofSibling} :
    Ledger.inclusionFoldV1 leaf siblings root = true ↔
      Merkle.climb combine leaf (siblings.map siblingStep) = root := by
  have hstep : ∀ (current : Bytes32) (s : ProofSibling), sha3_256 (siblingPair current s) =
      Merkle.ascend combine current (siblingStep s) := by
    intro current s
    unfold siblingPair Merkle.ascend combine siblingStep
    split <;> rfl
  unfold Ledger.inclusionFoldV1 Merkle.climb
  rw [List.foldl_map, decide_eq_true_iff]
  simp only [hstep]

theorem verifySealInclusionProof_iff {version : UInt16} {leaf root : Bytes32}
    {siblings : List ProofSibling} : verifySealInclusionProof version leaf siblings root = true ↔
      Merkle.climb (combineFor version) leaf (siblings.map siblingStep) = root := by
  unfold verifySealInclusionProof Ledger.verifyInclusionProof combineFor
  split
  · exact inclusionFoldV2_iff
  · exact inclusionFoldV1_iff

/-! ### Completeness -/

/-- Both verifiers accept the path that is given out for a hash, against the root over the list
that the hash is of. -/
theorem sealProofFor_complete (version : UInt16) (hversion : 1 ≤ version) (hashes : List Bytes32)
    (leaf : Bytes32) (hmem : leaf ∈ hashes) :
    ∃ p, sealProofFor version hashes leaf = some p ∧ p.leaf = leaf ∧
      p.root = sealRootFor version hashes ∧ verifySealProofFor version p = true ∧
      verifySealInclusionProof version leaf (p.siblings.map fun n => ⟨n.hash, n.isRight⟩)
        (sealRootFor version hashes) = true := by
  have hne : version ≠ 0 := by
    rintro rfl
    exact absurd hversion (by decide)
  obtain ⟨p, hproof, hclimb, -⟩ := proof_spec hmem
    (if foldV2MinWireVersion ≤ version then 2 else 1)
  obtain ⟨hleaf, hroot, hfold⟩ := of_proof_eq_some hproof
  refine ⟨p, hproof, hleaf, hroot, ?_, ?_⟩
  · have hwalk : verifyProof (combineFor version) p = true := by
      rw [verifyProof_iff, hleaf, hroot]
      exact hclimb
    unfold verifySealProofFor
    unfold combineFor at hwalk
    rw [if_neg hne, hfold]
    split at hwalk <;> simp [*]
  · rw [verifySealInclusionProof_iff, List.map_map]
    exact hclimb

end Hash

section Fixed

attribute [local instance] Smt.guardedSha3

/-- Of three records the last goes up one layer without a neighbour. -/
theorem sealProofFor_last : (1 : UInt16) ≤ 7 ∧ ∃ p,
    sealProofFor 7 [sha3_256 [1], sha3_256 [2], sha3_256 [3]] (sha3_256 [3]) = some p ∧
      verifySealProofFor 7 p = true := by
  obtain ⟨p, hproof, -, -, hverify, -⟩ := sealProofFor_complete 7 (by decide)
    [sha3_256 [1], sha3_256 [2], sha3_256 [3]] (sha3_256 [3]) (by simp)
  exact ⟨by decide, p, hproof, hverify⟩

end Fixed

end MerkleTree

end ElaraMesh.Seal
