import ElaraMesh.Seal.Committee
import Mathlib.Data.List.Dedup

/-!
# The two trees of a committee

The hash of a committee is computed where the committee is chosen, the paths of its members
where they sign, and each place has its own code for the tree.  One pairs the last node of an
odd layer with itself, the other repeats it first; one orders the hashes of the keys, the other
the keys with their hashes.

## Main results

* `committeeHashFromPks_eq`, `committeeRootV2Interior_eq` — the same root as that of the paths.
* `committeeHash_congr` — the root depends on the set of keys only.
* `climb_committeePath` — the path of a leaf leads to the root.
* `builders_agree` — roots and paths fit together.
-/

namespace ElaraMesh.Seal

open Ledger
open MerkleTree (combine combineTagged siblingStep inclusionFoldV1_iff inclusionFoldV2_iff)
open Smt (Sha3 Bytes32)

/-! ### The hash of a committee -/

section Hash

variable [Sha3]

/-- The leaves of a committee in their order and each once. -/
def sortedLeaves (pks : List (List UInt8)) : List Bytes32 :=
  ((pks.map committeeLeafHash).insertionSort fun a b => a.data ≤ b.data).destutter (· ≠ ·)

/-- A layer of the tree, with the last node of an odd layer combined with itself. -/
def doubledLayer (combine : Bytes32 → Bytes32 → Bytes32) : List Bytes32 → List Bytes32
  | [] => []
  | [l] => [combine l l]
  | l :: r :: rest => combine l r :: doubledLayer combine rest

/-- The root without a tag. -/
def committeeHashFromPks (pks : List (List UInt8)) : Bytes32 :=
  if pks = [] then Bytes32.zero
  else
    let leaves := sortedLeaves pks
    (Merkle.foldUp (doubledLayer combine) leaves.length leaves).headD Bytes32.zero

/-- The root with a tag; here an odd layer is padded. -/
def committeeRootV2Interior (pks : List (List UInt8)) : Bytes32 :=
  if pks = [] then Bytes32.zero
  else
    let leaves := sortedLeaves pks
    (Merkle.foldUp (committeeLayer (combineTagged committeeFoldV2NodeTag)) leaves.length
      leaves).headD Bytes32.zero

def committeeHashFromPksFor (sealWireVersion : UInt16) (pks : List (List UInt8)) : Bytes32 :=
  if foldV2MinWireVersion ≤ sealWireVersion then committeeRootV2Interior pks
  else committeeHashFromPks pks

/-! ### The same leaves -/

instance : Std.Antisymm fun a b : Bytes32 => a.data ≤ b.data :=
  ⟨fun _ _ hab hba => Bytes32.ext (List.le_antisymm hab hba)⟩

instance : IsTrans Bytes32 fun a b => a.data ≤ b.data := ⟨fun _ _ _ hab hbc =>
  List.le_trans hab hbc⟩

instance : Std.Total fun a b : Bytes32 => a.data ≤ b.data := ⟨fun a b =>
  List.le_total a.data b.data⟩

theorem sortedLeaves_eq_dedup (pks : List (List UInt8)) : sortedLeaves pks =
    ((pks.map committeeLeafHash).insertionSort fun a b => a.data ≤ b.data).dedup :=
  (List.pairwise_insertionSort _ _).destutter_eq_dedup

theorem mem_sortedLeaves {pks : List (List UInt8)} {a : Bytes32} :
    a ∈ sortedLeaves pks ↔ ∃ pk ∈ pks, committeeLeafHash pk = a := by
  simp [sortedLeaves_eq_dedup]

theorem nodup_sortedLeaves (pks : List (List UInt8)) : (sortedLeaves pks).Nodup :=
  sortedLeaves_eq_dedup pks ▸ List.nodup_dedup _

/-- The order and the repetitions of the keys do not matter. -/
theorem sortedLeaves_congr {pks pks' : List (List UInt8)} (h : ∀ pk, pk ∈ pks' ↔ pk ∈ pks) :
    sortedLeaves pks' = sortedLeaves pks := by
  have hperm : (sortedLeaves pks').Perm (sortedLeaves pks) :=
    (List.perm_ext_iff_of_nodup (nodup_sortedLeaves _) (nodup_sortedLeaves _)).mpr fun a => by
      simp only [mem_sortedLeaves, h]
  have hsorted : ∀ pks, (sortedLeaves pks).Pairwise fun a b => a.data ≤ b.data := fun pks =>
    (List.pairwise_insertionSort _ _).sublist (List.destutter_sublist _ _)
  exact hperm.eq_of_pairwise' (hsorted _) (hsorted _)

/-- Keys ordered by their hashes have the hashes in order. -/
theorem map_fst_committeeLeaves (pks : List (List UInt8)) :
    (committeeLeaves pks).map Prod.fst = sortedLeaves pks := by
  have hdestutter : ∀ l : List (Bytes32 × List UInt8),
      (l.destutter fun a b => a.1 ≠ b.1).map Prod.fst = (l.map Prod.fst).destutter (· ≠ ·) :=
    fun l => List.map_destutter fun _ _ _ _ => Iff.rfl
  unfold committeeLeaves sortedLeaves
  rw [hdestutter, List.map_insertionSort _ (fun a b : Bytes32 => a.data ≤ b.data) _ _
    fun _ _ _ _ => Iff.rfl, List.map_map]
  rfl

/-! ### The same layers -/

omit [Sha3] in
theorem doubledLayer_eq (combine : Bytes32 → Bytes32 → Bytes32) (level : List Bytes32) :
    doubledLayer combine level = committeeLayer combine level := by
  induction level using doubledLayer.induct with
  | case1 => rfl
  | case2 l => rfl
  | case3 l r rest ih =>
    unfold committeeLayer
    rw [Merkle.pad_cons_cons, doubledLayer, ih]
    rfl

theorem committeeHashFromPks_eq (pks : List (List UInt8)) :
    committeeHashFromPks pks = (buildCommitteeProofs combine pks).1 := by
  have hlayer : doubledLayer combine = committeeLayer combine := funext (doubledLayer_eq combine)
  unfold committeeHashFromPks buildCommitteeProofs
  rw [hlayer]
  split
  · rfl
  · simp only [map_fst_committeeLeaves]

theorem committeeRootV2Interior_eq (pks : List (List UInt8)) : committeeRootV2Interior pks =
    (buildCommitteeProofs (combineTagged committeeFoldV2NodeTag) pks).1 := by
  unfold committeeRootV2Interior buildCommitteeProofs
  split
  · rfl
  · simp only [map_fst_committeeLeaves]

theorem committeeHashFromPksFor_eq (version : UInt16) (pks : List (List UInt8)) :
    committeeHashFromPksFor version pks = (buildCommitteeProofsFor version pks).1 := by
  unfold committeeHashFromPksFor buildCommitteeProofsFor
  rw [committeeHashFromPks_eq, committeeRootV2Interior_eq]
  split <;> rfl

/-- The root depends on the set of the keys only. -/
theorem committeeHash_congr (version : UInt16) {pks pks' : List (List UInt8)}
    (h : ∀ pk, pk ∈ pks' ↔ pk ∈ pks) :
    committeeHashFromPksFor version pks' = committeeHashFromPksFor version pks := by
  have hnil : pks' = [] ↔ pks = [] := by simp only [List.eq_nil_iff_forall_not_mem, h]
  unfold committeeHashFromPksFor committeeHashFromPks committeeRootV2Interior
  simp only [hnil, sortedLeaves_congr h]

end Hash

/-! ### The paths -/

section Paths

variable [Sha3] {combine : Bytes32 → Bytes32 → Bytes32} {version : UInt16}
  {pks : List (List UInt8)}

omit [Sha3] in
theorem climb_committeePath {n : ℕ} {level : List Bytes32} {pos : ℕ} {leaf : Bytes32}
    (h : level[pos]? = some leaf) (hn : level.length ≤ n + 1) :
    Merkle.foldUp (committeeLayer combine) n level =
      [Merkle.climb combine leaf ((committeePath combine n level pos).map siblingStep)] := by
  -- a layer up, the position is halved and the leaf is the node above it
  induction n generalizing level pos leaf with
  | zero => exact Merkle.eq_singleton h hn
  | succ n ih =>
    rw [Merkle.foldUp, committeePath]
    split
    · next hlt =>
      have hpos : pos < level.length := (List.getElem?_eq_some_iff.mp h).1
      have hlength : (committeeLayer combine level).length ≤ n + 1 := by
        unfold committeeLayer
        rw [Merkle.length_pairUp, Merkle.length_pad]
        omega
      have habove := Merkle.getElem?_pairUp combine (Merkle.getElem?_pad h)
      rw [Merkle.siblings_pad hpos Bytes32.zero] at habove
      exact ih habove hlength
    · next hle => exact Merkle.eq_singleton h (not_lt.mp hle)

omit [Sha3] in
theorem of_mem_zip_paths {leaves : List Bytes32} {keys : List (List UInt8)} {pk : List UInt8}
    {proof : List ProofSibling} (h : (pk, proof) ∈ keys.zip
      ((List.range leaves.length).map (committeePath combine leaves.length leaves))) :
    ∃ pos, keys[pos]? = some pk ∧ pos < leaves.length ∧
      proof = committeePath combine leaves.length leaves pos := by
  obtain ⟨pos, hpos, hentry⟩ := List.getElem_of_mem h
  rw [List.length_zip, List.length_map, List.length_range] at hpos
  rw [List.getElem_zip, List.getElem_map, List.getElem_range] at hentry
  obtain ⟨hkey, hproof⟩ := Prod.mk.inj hentry
  exact ⟨pos, List.getElem?_eq_some_iff.mpr ⟨by omega, hkey⟩, by omega, hproof.symm⟩

/-- A path that is given out leads from the leaf of its key to the root. -/
theorem climb_of_lookup {pk : List UInt8} {proof : List ProofSibling}
    (h : (buildCommitteeProofs combine pks).2.lookup pk = some proof) :
    Merkle.climb combine (committeeLeafHash pk) (proof.map siblingStep) =
      (buildCommitteeProofs combine pks).1 := by
  unfold buildCommitteeProofs at h ⊢
  split at h
  · cases h
  · next hne =>
    rw [if_neg hne]
    have hmem := (Table.of_lookup_foldl_insert h).resolve_right nofun
    obtain ⟨pos, hkey, -, rfl⟩ := of_mem_zip_paths hmem
    rw [List.getElem?_map] at hkey
    obtain ⟨e, he, rfl⟩ := Option.map_eq_some_iff.mp hkey
    have hleaf := (mem_committeeLeaves (List.mem_of_getElem? he)).2
    have hfound : ((committeeLeaves pks).map Prod.fst)[pos]? = some (committeeLeafHash e.2) := by
      rw [List.getElem?_map, he, ← hleaf]
      rfl
    dsimp only
    rw [climb_committeePath hfound (Nat.le_succ _)]
    rfl

/-- A key has a path, unless another key has the same leaf. -/
theorem exists_lookup {pk : List UInt8} (hpk : pk ∈ pks)
    (hinj : ∀ pk' ∈ pks, committeeLeafHash pk' = committeeLeafHash pk → pk' = pk) :
    ∃ proof, (buildCommitteeProofs combine pks).2.lookup pk = some proof := by
  unfold buildCommitteeProofs
  rw [if_neg (List.ne_nil_of_mem hpk)]
  apply Table.exists_lookup_foldl_insert
  left
  have hleaf : committeeLeafHash pk ∈ (committeeLeaves pks).map Prod.fst := by
    rw [map_fst_committeeLeaves]
    exact mem_sortedLeaves.mpr ⟨pk, hpk, rfl⟩
  obtain ⟨e, he, heq⟩ := List.mem_map.mp hleaf
  obtain ⟨hmem, hhash⟩ := mem_committeeLeaves he
  rw [List.map_fst_zip (by simp)]
  exact List.mem_map.mpr ⟨e, he, hinj e.2 hmem (hhash.symm.trans heq)⟩

theorem verifyCommitteeInclusionProof_of_lookup {pk : List UInt8} {proof : List ProofSibling}
    (h : (buildCommitteeProofsFor version pks).2.lookup pk = some proof) :
    verifyCommitteeInclusionProof version (committeeLeafHash pk) proof
      (buildCommitteeProofsFor version pks).1 = true := by
  unfold verifyCommitteeInclusionProof verifyInclusionProof
  unfold buildCommitteeProofsFor at h ⊢
  split at h
  · next hversion =>
    rw [if_pos hversion, if_pos hversion]
    exact inclusionFoldV2_iff.mpr (climb_of_lookup h)
  · next hversion =>
    rw [if_neg hversion, if_neg hversion]
    exact inclusionFoldV1_iff.mpr (climb_of_lookup h)

/-- The root of the paths is the hash of the committee, in whatever order and however often its
keys are listed; a path that is given out is accepted, and every key has one, unless another key
has the same leaf. -/
theorem builders_agree (version : UInt16) (pks : List (List UInt8)) :
    (∀ pks' : List (List UInt8), (∀ pk, pk ∈ pks' ↔ pk ∈ pks) →
      (buildCommitteeProofsFor version pks).1 = committeeHashFromPksFor version pks') ∧
    ∀ pk ∈ pks,
      (∀ proof, (buildCommitteeProofsFor version pks).2.lookup pk = some proof →
        verifyCommitteeInclusionProof version (committeeLeafHash pk) proof
          (buildCommitteeProofsFor version pks).1 = true) ∧
      ((∀ pk' ∈ pks, committeeLeafHash pk' = committeeLeafHash pk → pk' = pk) →
        ∃ proof, (buildCommitteeProofsFor version pks).2.lookup pk = some proof) := by
  refine ⟨fun pks' h => ?_, fun pk hpk => ⟨fun proof h => ?_, fun hinj => ?_⟩⟩
  · rw [committeeHash_congr version h, committeeHashFromPksFor_eq]
  · exact verifyCommitteeInclusionProof_of_lookup h
  · unfold buildCommitteeProofsFor
    split
    · exact exists_lookup hpk hinj
    · exact exists_lookup hpk hinj

end Paths

section Fixed

attribute [local instance] Smt.guardedSha3

/-- A key that is listed twice has a path, and listed once the committee has the same hash. -/
theorem builders_agree_threeKeys :
    (buildCommitteeProofsFor 7 threeKeys).1 = committeeHashFromPksFor 7 [[1], [2], [3]] ∧
      ∃ proof, (buildCommitteeProofsFor 7 threeKeys).2.lookup [1] = some proof := by
  have hset : ∀ pk, pk ∈ [[1], [2], [3]] ↔ pk ∈ threeKeys := by
    intro pk
    simp only [threeKeys, List.mem_cons, List.not_mem_nil, or_false]
    grind
  have hnodup : ([[1], [2], [3]].map committeeLeafHash).Nodup := by decide +kernel
  obtain ⟨hroot, hpaths⟩ := builders_agree 7 threeKeys
  refine ⟨hroot _ hset, (hpaths [1] (by simp [threeKeys])).2 fun pk hpk heq => ?_⟩
  exact List.inj_on_of_nodup_map hnodup ((hset pk).mpr hpk) (by simp) heq

end Fixed

end ElaraMesh.Seal
