import ElaraMesh.Record.Identity
import ElaraMesh.Seal.Merkle
import Mathlib.Data.List.Destutter

/-!
# Quorums of a committee

The keys of a committee are the leaves of a tree, sorted by their hashes and each once; the
last node of an odd layer is repeated.  Who signs shows a path from its key to the root of the
tree.  Whatever keys, paths and signatures are presented, a quorum is one of members of the
committee, counted once each.

## Main results

* `mem_verifiedSigners`, `nodup_verifiedSigners` — who is counted.
* `mem_of_inclusion` — a path of any length leads from members of the committee only.
* `finalityMessage_injective`, `abortMessage_eq` — what a message says.
* `quorums_real` — what a quorum that is accepted shows.
-/

namespace ElaraMesh.Seal

open Framing
open Ledger
open MerkleTree (combine combineTagged siblingStep inclusionFoldV2_iff)
open Record (Str ZoneId)
open Smt (Sha3 sha3_256 Bytes32)

/-! ### The tree of a committee -/

section Tree

variable [Sha3]

/-- The leaves of a committee with their keys, in the order of the leaves and each once. -/
def committeeLeaves (pks : List (List UInt8)) : List (Bytes32 × List UInt8) :=
  ((pks.map fun pk => (committeeLeafHash pk, pk)).insertionSort fun a b =>
    a.1.data ≤ b.1.data).destutter fun a b => a.1 ≠ b.1

/-- A layer of the tree, with its last node repeated if it is odd. -/
def committeeLayer (combine : Bytes32 → Bytes32 → Bytes32) (level : List Bytes32) : List Bytes32 :=
  Merkle.pairUp combine (Merkle.pad level)

def committeePath (combine : Bytes32 → Bytes32 → Bytes32) :
    ℕ → List Bytes32 → ℕ → List ProofSibling
  | 0, _, _ => []
  | n + 1, level, pos =>
    if 1 < level.length then
      let padded := Merkle.pad level
      let pairPos := if pos % 2 = 0 then pos + 1 else pos - 1
      ⟨padded.getD (min pairPos (padded.length - 1)) Bytes32.zero, pos % 2 = 0⟩ ::
        committeePath combine n (committeeLayer combine level) (pos / 2)
    else []

/-- The root of a committee and the paths of its keys; an empty committee has none. -/
def buildCommitteeProofs (combine : Bytes32 → Bytes32 → Bytes32) (pks : List (List UInt8)) :
    Bytes32 × Table (List UInt8) (List ProofSibling) :=
  if pks = [] then (Bytes32.zero, ∅)
  else
    let paired := committeeLeaves pks
    let leaves := paired.map Prod.fst
    let proofs := (List.range leaves.length).map (committeePath combine leaves.length leaves)
    ((Merkle.foldUp (committeeLayer combine) leaves.length leaves).headD Bytes32.zero,
      ((paired.map Prod.snd).zip proofs).foldl (fun m e => m.insert e.1 e.2) ∅)

def buildCommitteeProofsFor (sealWireVersion : UInt16) (pks : List (List UInt8)) :
    Bytes32 × Table (List UInt8) (List ProofSibling) :=
  if foldV2MinWireVersion ≤ sealWireVersion then
    buildCommitteeProofs (combineTagged committeeFoldV2NodeTag) pks
  else buildCommitteeProofs combine pks

def leafInput (pk : List UInt8) : List UInt8 := (Str.text "ELARA/COMMITTEE_LEAF/v1").bytes ++ pk

/-- The bytes a node of the tree is hashed from. -/
def committeeNodeInput (p : Bytes32 × Bytes32) : List UInt8 :=
  committeeFoldV2NodeTag ++ (p.1.data ++ p.2.data)

/-- The bytes that are hashed for the root of a committee. -/
def committeeInputs (pks : List (List UInt8)) : List (List UInt8) :=
  let leaves := (committeeLeaves pks).map Prod.fst
  pks.map leafInput ++ (Merkle.foldPairs (committeeLayer (combineTagged committeeFoldV2NodeTag))
    (fun level => Merkle.pairsOf (Merkle.pad level)) leaves.length leaves).map committeeNodeInput

/-- The bytes that are hashed for the path of a witness. -/
def witnessInputs (w : SealFinalityWitness) : List (List UInt8) :=
  leafInput w.witnessPk :: (Merkle.climbPairs (combineTagged committeeFoldV2NodeTag)
    (committeeLeafHash w.witnessPk) (w.committeeProof.map siblingStep)).map committeeNodeInput

variable {pks : List (List UInt8)}

theorem mem_committeeLeaves {e : Bytes32 × List UInt8}
    (h : e ∈ committeeLeaves pks) : e.2 ∈ pks ∧ e.1 = committeeLeafHash e.2 := by
  have hsorted := (List.destutter_sublist _ _).subset h
  obtain ⟨pk, hpk, rfl⟩ := List.mem_map.mp ((List.mem_insertionSort _).mp hsorted)
  exact ⟨hpk, rfl⟩

theorem committeeLeaves_ne_nil (h : pks ≠ []) :
    committeeLeaves pks ≠ [] := by
  intro hnil
  have hsorted := (List.destutter_eq_nil _).mp hnil
  have hlength := (List.perm_insertionSort (fun a b : Bytes32 × List UInt8 => a.1.data ≤ b.1.data)
    (pks.map fun pk => (committeeLeafHash pk, pk))).length_eq
  rw [hsorted, List.length_nil, List.length_map] at hlength
  exact h (List.length_eq_zero_iff.mp hlength.symm)

/-- The root is the hash of a tree whose leaves are the leaves of members. -/
theorem exists_committee_tree {version : UInt16} (hversion : foldV2MinWireVersion ≤ version)
    (hne : pks ≠ []) : ∃ t : Merkle.Tree Bytes32,
      (∀ a ∈ t.leaves, ∃ pk ∈ pks, a = committeeLeafHash pk) ∧
      (buildCommitteeProofsFor version pks).1 = t.hash (combineTagged committeeFoldV2NodeTag) ∧
      ∀ p ∈ t.pairs (combineTagged committeeFoldV2NodeTag),
        committeeNodeInput p ∈ committeeInputs pks := by
  have hleaves : (committeeLeaves pks).map Prod.fst ≠ [] :=
    mt List.map_eq_nil_iff.mp (committeeLeaves_ne_nil hne)
  obtain ⟨t, hmem, hfold, hpairs⟩ := Merkle.exists_padded_tree
    (combineTagged committeeFoldV2NodeTag) hleaves (Nat.le_succ _)
  refine ⟨t, fun a ha => ?_, ?_, fun p hp => ?_⟩
  · obtain ⟨e, he, rfl⟩ := List.mem_map.mp (hmem a ha)
    exact ⟨e.2, mem_committeeLeaves he⟩
  · unfold buildCommitteeProofsFor buildCommitteeProofs
    rw [if_pos hversion, if_neg hne]
    exact congrArg (List.headD · Bytes32.zero) hfold
  · exact List.mem_append_right _ (List.mem_map_of_mem (hpairs p hp))

end Tree

/-! ### Who is counted -/

section Signers

variable [Sha3] [Dilithium] {version : UInt16} {msg : List UInt8} {root : Bytes32}
  {signers signers' : List SealFinalityWitness} {k : List UInt8}

/-- The witness shows a path of its key and a signature over the message. -/
def Endorses (version : UInt16) (msg : List UInt8) (root : Bytes32) (w : SealFinalityWitness) :
    Prop :=
  verifyCommitteeInclusionProof version (committeeLeafHash w.witnessPk) w.committeeProof root =
      true ∧ Dilithium.verify msg w.signature w.witnessPk = true

/-- A witness adds its key if it is not there yet, and the witness endorses the message. -/
theorem verifySigner_cases (version : UInt16) (msg : List UInt8) (root : Bytes32)
    (verified : List (List UInt8)) (w : SealFinalityWitness) :
    verifySigner version msg root verified w = verified ∧
        (w.witnessPk ∈ verified ∨ ¬ Endorses version msg root w) ∨
    verifySigner version msg root verified w = w.witnessPk :: verified ∧
        w.witnessPk ∉ verified ∧ Endorses version msg root w := by
  unfold verifySigner Endorses
  split
  · next hmem => exact Or.inl ⟨rfl, Or.inl hmem⟩
  next hmem =>
  split
  · next hpath =>
    refine Or.inl ⟨rfl, Or.inr fun h => ?_⟩
    rw [h.1] at hpath
    exact absurd hpath (by decide)
  next hpath =>
  split
  · next hsig =>
    refine Or.inl ⟨rfl, Or.inr fun h => ?_⟩
    rw [h.2] at hsig
    exact absurd hsig (by decide)
  next hsig =>
  refine Or.inr ⟨rfl, hmem, ?_, ?_⟩
  · exact not_not.mp fun h => hpath (by simpa using h)
  · exact not_not.mp fun h => hsig (by simpa using h)

theorem verifiedSigners_spec (verified : List (List UInt8)) (hnodup : verified.Nodup) :
    let after := signers.foldl (verifySigner version msg root) verified
    after.Nodup ∧ ∀ k, k ∈ after ↔
      k ∈ verified ∨ ∃ w ∈ signers, w.witnessPk = k ∧ Endorses version msg root w := by
  induction signers generalizing verified with
  | nil =>
    refine ⟨hnodup, fun k => (or_iff_left ?_).symm⟩
    rintro ⟨w, hw, -⟩
    exact List.not_mem_nil hw
  | cons w signers ih =>
    dsimp only [List.foldl_cons] at ih ⊢
    obtain ⟨hstep, hkept⟩ | ⟨hstep, hnew, hendorses⟩ :=
      verifySigner_cases version msg root verified w
    · rw [hstep]
      obtain ⟨hafter, hmem⟩ := ih verified hnodup
      refine ⟨hafter, fun k => (hmem k).trans ?_⟩
      rw [List.exists_mem_cons_iff]
      refine or_congr_right' fun hk => (or_iff_right ?_).symm
      rintro ⟨rfl, hendorses⟩
      exact hkept.elim hk fun h => h hendorses
    · rw [hstep]
      obtain ⟨hafter, hmem⟩ := ih _ (List.nodup_cons.mpr ⟨hnew, hnodup⟩)
      refine ⟨hafter, fun k => (hmem k).trans ?_⟩
      rw [List.mem_cons, List.exists_mem_cons_iff, and_iff_left hendorses, or_assoc,
        or_left_comm, eq_comm (a := k)]

theorem mem_verifiedSigners : k ∈ verifiedSigners version msg root signers ↔
    ∃ w ∈ signers, w.witnessPk = k ∧ Endorses version msg root w :=
  ((verifiedSigners_spec [] List.nodup_nil).2 k).trans (or_iff_right List.not_mem_nil)

theorem nodup_verifiedSigners : (verifiedSigners version msg root signers).Nodup :=
  (verifiedSigners_spec [] List.nodup_nil).1

/-- More witnesses do not lower the count. -/
theorem length_verifiedSigners_le (h : signers ⊆ signers') :
    (verifiedSigners version msg root signers).length ≤
      (verifiedSigners version msg root signers').length := by
  refine (nodup_verifiedSigners.subperm fun k hk => ?_).length_le
  obtain ⟨w, hw, hk⟩ := mem_verifiedSigners.mp hk
  exact mem_verifiedSigners.mpr ⟨w, h hw, hk⟩

omit [Sha3] [Dilithium] in
theorem two_thirds_of_not_below {n : ℕ} {size : UInt32} (h : belowQuorum n size = false) :
    2 * size.toNat ≤ 3 * n := by
  unfold belowQuorum at h
  have hle := not_lt.mp (of_decide_eq_false h)
  have hsize := size.toNat_lt
  have hmax : U128.satMul size.toNat 2 = size.toNat * 2 :=
    min_eq_left (by
      have : (2 : ℕ) ^ 33 ≤ U128.max := by decide
      omega)
  have hsat : U128.satMul n 3 ≤ n * 3 := min_le_left _ _
  omega

omit [Sha3] [Dilithium] in
theorem belowQuorum_mono {n n' : ℕ} {size : UInt32} (hle : n ≤ n')
    (h : belowQuorum n size = false) : belowQuorum n' size = false := by
  unfold belowQuorum at h ⊢
  have hsat : U128.satMul n 3 ≤ U128.satMul n' 3 :=
    min_le_min_right _ (Nat.mul_le_mul_right 3 hle)
  exact decide_eq_false (not_lt.mpr ((not_lt.mp (of_decide_eq_false h)).trans hsat))

end Signers

/-! ### Who has a path -/

theorem committeeNodeInput_injective : Function.Injective committeeNodeInput :=
  fun _ _ h => MerkleTree.eq_of_data_append_eq (List.append_cancel_left h)

/-- The tags of leaves and nodes have one length, and differ. -/
theorem leafInput_ne_nodeInput (pk : List UInt8) (p : Bytes32 × Bytes32) :
    leafInput pk ≠ committeeNodeInput p := by
  intro h
  have hlength : (Str.text "ELARA/COMMITTEE_LEAF/v1").bytes.length =
      committeeFoldV2NodeTag.length := by decide +kernel
  exact absurd (List.append_inj h hlength).1 (by decide +kernel)

section Members

variable [Sha3] {pks : List (List UInt8)} {version : UInt16}

/-- A path of any length leads to the root of a committee from its members only. -/
theorem mem_of_inclusion (hversion : foldV2MinWireVersion ≤ version) (hne : pks ≠ [])
    {w : SealFinalityWitness}
    (hinj : Set.InjOn sha3_256 {x | x ∈ committeeInputs pks ++ witnessInputs w})
    (h : verifyCommitteeInclusionProof version (committeeLeafHash w.witnessPk) w.committeeProof
      (buildCommitteeProofsFor version pks).1 = true) : w.witnessPk ∈ pks := by
  obtain ⟨t, hleaves, hroot, hpairs⟩ := exists_committee_tree hversion hne
  have hmember : ∀ pk ∈ pks, leafInput pk ∈ committeeInputs pks ++ witnessInputs w := fun pk hpk =>
    List.mem_append_left _ (List.mem_append_left _ (List.mem_map_of_mem hpk))
  have hwitness : leafInput w.witnessPk ∈ committeeInputs pks ++ witnessInputs w :=
    List.mem_append_right _ List.mem_cons_self
  have hbinding : Merkle.Binding (combineTagged committeeFoldV2NodeTag)
      {p | committeeNodeInput p ∈ committeeInputs pks ++ witnessInputs w}
      {a | ∃ pk ∈ w.witnessPk :: pks, a = committeeLeafHash pk} := by
    refine ⟨fun p hp q hq heq => committeeNodeInput_injective (hinj hp hq heq), fun p hp => ?_⟩
    rintro ⟨pk, hpk, heq⟩
    have hmem : leafInput pk ∈ committeeInputs pks ++ witnessInputs w := by
      rcases List.mem_cons.mp hpk with rfl | hpk
      · exact hwitness
      · exact hmember pk hpk
    exact leafInput_ne_nodeInput pk p (hinj hmem hp heq.symm)
  have hclimb := inclusionFoldV2_iff.mp ((if_pos hversion).symm.trans h)
  have hleaf : committeeLeafHash w.witnessPk ∈ t.leaves := by
    refine hbinding.mem_leaves ⟨_, List.mem_cons_self, rfl⟩ (fun q hq => ?_) (fun q hq => ?_)
      (fun b hb => ?_) (hclimb.trans hroot)
    · exact List.mem_append_right _ (List.mem_cons_of_mem _ (List.mem_map_of_mem hq))
    · exact List.mem_append_left _ (hpairs q hq)
    · obtain ⟨pk, hpk, rfl⟩ := hleaves b hb
      exact ⟨pk, List.mem_cons_of_mem _ hpk, rfl⟩
  obtain ⟨pk, hpk, heq⟩ := hleaves _ hleaf
  have hinput := hinj hwitness (hmember pk hpk) heq
  rw [List.append_cancel_left hinput]
  exact hpk

end Members

/-! ### What a message says -/

section Messages

variable {zone zone' : ZoneId} {epoch epoch' : UInt64} {root root' committee committee' : Bytes32}
  {id id' : Str}

/-- The two domains differ within their common length. -/
theorem finalityMessage_ne_abortMessage :
    xzoneFinalitySignableBytes zone epoch root committee ≠
      xzoneAbortSignableBytes id zone' epoch' committee' := by
  intro h
  have hpre : (xzoneFinalitySignableBytes zone epoch root committee).take 20 =
      (xzoneAbortSignableBytes id zone' epoch' committee').take 20 := congrArg (List.take 20) h
  unfold xzoneFinalitySignableBytes xzoneAbortSignableBytes at hpre
  simp only [List.append_assoc] at hpre
  rw [List.take_append_of_le_length (by decide +kernel),
    List.take_append_of_le_length (by decide +kernel)] at hpre
  exact absurd hpre (by decide +kernel)

/-- What ends a message: an epoch and hashes. -/
theorem tail_inj {l l' r r' : List UInt8} (h : l ++ bigEndian 8 epoch.toNat ++ r =
    l' ++ bigEndian 8 epoch'.toNat ++ r') (hlength : r.length = r'.length) :
    l = l' ∧ epoch = epoch' ∧ r = r' := by
  obtain ⟨hfront, hend⟩ := List.append_inj' h hlength
  obtain ⟨hl, hepoch⟩ := List.append_inj' hfront (by rw [length_bigEndian, length_bigEndian])
  exact ⟨hl, UInt64.toNat_inj.mp (bigEndian_injective epoch.toNat_lt epoch'.toNat_lt hepoch), hend⟩

/-- The length of a message fixes that of the zone, so a message says what it is for. -/
theorem finalityMessage_injective (h : xzoneFinalitySignableBytes zone epoch root committee =
    xzoneFinalitySignableBytes zone' epoch' root' committee') :
    zone = zone' ∧ epoch = epoch' ∧ root = root' ∧ committee = committee' := by
  unfold xzoneFinalitySignableBytes at h
  obtain ⟨hfront, hcommittee⟩ := List.append_inj' h (committee.size_eq.trans committee'.size_eq.symm)
  obtain ⟨hzone, hepoch, hroot⟩ := tail_inj hfront (root.size_eq.trans root'.size_eq.symm)
  rw [List.append_assoc, List.append_assoc] at hzone
  obtain ⟨-, hpath⟩ := List.append_inj (List.append_cancel_left hzone)
    (by rw [length_bigEndian, length_bigEndian])
  refine ⟨?_, hepoch, Bytes32.ext hroot, Bytes32.ext hcommittee⟩
  cases zone
  cases zone'
  exact congrArg ZoneId.mk hpath

/-- Two lengths a message does not tell apart. -/
def Confusable (id id' : Str) : Prop := id.len ≠ id'.len ∧ id.len % 2 ^ 32 = id'.len % 2 ^ 32

/-- A message to abort says what it is for, up to the lengths that are written alike. -/
theorem abortMessage_eq (h : xzoneAbortSignableBytes id zone epoch committee =
    xzoneAbortSignableBytes id' zone' epoch' committee') :
    epoch = epoch' ∧ committee = committee' ∧ (id = id' ∧ zone = zone' ∨ Confusable id id') := by
  unfold xzoneAbortSignableBytes at h
  obtain ⟨hfront, hepoch, hcommittee⟩ := tail_inj h (committee.size_eq.trans committee'.size_eq.symm)
  refine ⟨hepoch, Bytes32.ext hcommittee, ?_⟩
  simp only [List.append_assoc] at hfront
  obtain ⟨hlength, hrest⟩ := List.append_inj (List.append_cancel_left hfront)
    (by rw [length_bigEndian, length_bigEndian])
  have hmod := congrArg ofBigEndian hlength
  rw [ofBigEndian_bigEndian, ofBigEndian_bigEndian] at hmod
  rcases eq_or_ne id.len id'.len with heq | hne
  · obtain ⟨hid, hzone⟩ := List.append_inj hrest heq
    obtain ⟨-, hpath⟩ := List.append_inj hzone (by rw [length_bigEndian, length_bigEndian])
    refine Or.inl ⟨Str.ext hid, ?_⟩
    cases zone
    cases zone'
    exact congrArg ZoneId.mk hpath
  · exact Or.inr ⟨hne, hmod⟩

end Messages

/-! ### Quorums -/

section Quorums

variable [Sha3] [Dilithium]

/-- At least two thirds of the keys of the list, counted once each, have signed the message. -/
def QuorumOf (pks : List (List UInt8)) (msg : List UInt8) (signers : List SealFinalityWitness) :
    Prop :=
  ∃ keys : Finset (List UInt8), 2 * pks.dedup.length ≤ 3 * keys.card ∧
    ∀ k ∈ keys, k ∈ pks ∧ ∃ w ∈ signers, w.witnessPk = k ∧ Dilithium.verify msg w.signature k = true

/-- What acceptance of witnesses to a message shows, as long as SHA3-256 tells apart the bytes
that are hashed for the committee and the paths; and what it does not depend on. -/
structure Sound (pks : List (List UInt8)) (msg : List UInt8)
    (Accepts : List SealFinalityWitness → Prop) : Prop where
  real : ∀ signers,
    Set.InjOn sha3_256 {x | x ∈ committeeInputs pks ++ signers.flatMap witnessInputs} →
    Accepts signers → QuorumOf pks msg signers
  same : ∀ signers signers', (∀ w, w ∈ signers ↔ w ∈ signers') →
    (Accepts signers ↔ Accepts signers')
  more : ∀ signers signers', signers ⊆ signers' → Accepts signers → Accepts signers'

variable {version : UInt16} {n : UInt32}

/-- Who accepts what is not below the quorum is sound. -/
theorem sound_of_iff (hversion : foldV2MinWireVersion ≤ version)
    {pks : List (List UInt8)} (hne : pks ≠ []) (hn : n.toNat = pks.dedup.length)
    {msg : List UInt8} {P : Prop} {Accepts : List SealFinalityWitness → Prop}
    (hiff : ∀ signers, Accepts signers ↔ P ∧ belowQuorum (verifiedSigners version msg
      (buildCommitteeProofsFor version pks).1 signers).length n = false) :
    Sound pks msg Accepts := by
  have hmore : ∀ signers signers', signers ⊆ signers' → Accepts signers → Accepts signers' := by
    intro signers signers' hsub h
    obtain ⟨hP, hquorum⟩ := (hiff signers).mp h
    exact (hiff signers').mpr ⟨hP, belowQuorum_mono (length_verifiedSigners_le hsub) hquorum⟩
  refine ⟨fun signers hinj h => ?_, fun signers signers' hmem => ?_, hmore⟩
  · have hquorum := two_thirds_of_not_below ((hiff signers).mp h).2
    refine ⟨(verifiedSigners version msg (buildCommitteeProofsFor version pks).1 signers).toFinset,
      ?_, fun k hk => ?_⟩
    · rw [List.toFinset_card_of_nodup nodup_verifiedSigners, ← hn]
      exact hquorum
    obtain ⟨w, hw, rfl, hpath, hsig⟩ := mem_verifiedSigners.mp (List.mem_toFinset.mp hk)
    refine ⟨mem_of_inclusion hversion hne (hinj.mono fun x hx => ?_) hpath, w, hw, rfl, hsig⟩
    rcases List.mem_append.mp hx with hx | hx
    · exact List.mem_append_left _ hx
    · exact List.mem_append_right _ (List.mem_flatMap.mpr ⟨w, hw, hx⟩)
  · exact ⟨hmore _ _ fun w => (hmem w).mp, hmore _ _ fun w => (hmem w).mpr⟩

theorem verifyFinalityQuorum_ok_iff {zone : ZoneId} {epoch : UInt64}
    {root committee : Bytes32} {signers : List SealFinalityWitness} :
    verifyFinalityQuorum version zone epoch root committee n signers = .ok () ↔
      n ≠ 0 ∧ belowQuorum (verifiedSigners version
        (xzoneFinalitySignableBytes zone epoch root committee) committee signers).length n =
          false := by
  unfold verifyFinalityQuorum
  dsimp only
  split
  · next h => exact iff_of_false (fun h => nomatch h) fun hn => hn.1 h
  next h =>
  split
  · next hbelow =>
    refine iff_of_false (fun h => nomatch h) fun hn => ?_
    rw [hn.2] at hbelow
    exact absurd hbelow (by decide)
  · next hbelow => exact iff_of_true rfl ⟨h, eq_false_of_ne_true hbelow⟩

theorem verifyAbortQuorum_ok_iff {id : Str} {zone : ZoneId} {epoch : UInt64}
    {claimed committee : Bytes32} {m : UInt32} {signers : List SealFinalityWitness} :
    verifyAbortQuorum version id zone epoch claimed m signers (some (committee, n)) = .ok () ↔
      (claimed = committee ∧ m = n ∧ n ≠ 0) ∧ belowQuorum (verifiedSigners version
        (xzoneAbortSignableBytes id zone epoch committee) committee signers).length n = false := by
  unfold verifyAbortQuorum
  dsimp only
  split
  · next h => exact iff_of_false (fun h => nomatch h) fun hn => h hn.1.1
  next hclaimed =>
  split
  · next h => exact iff_of_false (fun h => nomatch h) fun hn => h hn.1.2.1
  next hsize =>
  split
  · next h => exact iff_of_false (fun h => nomatch h) fun hn => hn.1.2.2 h
  next h =>
  split
  · next hbelow =>
    refine iff_of_false (fun h => nomatch h) fun hn => ?_
    rw [hn.2] at hbelow
    exact absurd hbelow (by decide)
  · next hbelow =>
    exact iff_of_true rfl ⟨⟨not_not.mp hclaimed, not_not.mp hsize, h⟩, eq_false_of_ne_true hbelow⟩

/-- Quorums of a committee are real.  Acceptance against the root of a list of keys shows that
two thirds of them have signed just this message; and a message says what it is for, up to two
identifiers of an abort whose lengths differ by a multiple of `2 ^ 32`. -/
theorem quorums_real (version : UInt16) (hversion : foldV2MinWireVersion ≤ version)
    (pks : List (List UInt8)) (hne : pks ≠ []) (n : UInt32) (hn : n.toNat = pks.dedup.length) :
    (∀ zone epoch root, Sound pks
      (xzoneFinalitySignableBytes zone epoch root (buildCommitteeProofsFor version pks).1)
      fun signers => verifyFinalityQuorum version zone epoch root
        (buildCommitteeProofsFor version pks).1 n signers = .ok ()) ∧
    (∀ id zone epoch claimed m, Sound pks
      (xzoneAbortSignableBytes id zone epoch (buildCommitteeProofsFor version pks).1)
      fun signers => verifyAbortQuorum version id zone epoch claimed m signers
        (some ((buildCommitteeProofsFor version pks).1, n)) = .ok ()) ∧
    (∀ zone epoch root committee id zone' epoch' committee',
      xzoneFinalitySignableBytes zone epoch root committee ≠
        xzoneAbortSignableBytes id zone' epoch' committee') ∧
    (∀ zone epoch root committee zone' epoch' root' committee',
      xzoneFinalitySignableBytes zone epoch root committee =
        xzoneFinalitySignableBytes zone' epoch' root' committee' →
      zone = zone' ∧ epoch = epoch' ∧ root = root' ∧ committee = committee') ∧
    ∀ id zone epoch committee id' zone' epoch' committee',
      xzoneAbortSignableBytes id zone epoch committee =
        xzoneAbortSignableBytes id' zone' epoch' committee' →
      epoch = epoch' ∧ committee = committee' ∧ (id = id' ∧ zone = zone' ∨ Confusable id id') := by
  refine ⟨fun zone epoch root => ?_, fun id zone epoch claimed m => ?_,
    fun _ _ _ _ _ _ _ _ => finalityMessage_ne_abortMessage,
    fun _ _ _ _ _ _ _ _ => finalityMessage_injective, fun _ _ _ _ _ _ _ _ => abortMessage_eq⟩
  · exact sound_of_iff hversion hne hn fun signers => verifyFinalityQuorum_ok_iff
  · exact sound_of_iff hversion hne hn fun signers => verifyAbortQuorum_ok_iff

end Quorums

section Fixed

/-- Signatures that repeat the message and the key. -/
@[reducible] def repeated : Dilithium :=
  ⟨fun message signature publicKey => signature = message ++ publicKey⟩

attribute [local instance] Smt.guardedSha3 repeated

def threeKeys : List (List UInt8) := [[3], [1], [2], [1]]

/-- Who signs with the path that the committee gives. -/
def signedBy (msg pk : List UInt8) : SealFinalityWitness where
  witnessPk := pk
  signature := msg ++ pk
  committeeProof := ((buildCommitteeProofsFor 7 threeKeys).2.lookup pk).getD []

def threeKeysMessage : List UInt8 :=
  xzoneFinalitySignableBytes ⟨[0x61]⟩ 5 Bytes32.zero (buildCommitteeProofsFor 7 threeKeys).1

/-- Two members, one of them twice, and one who is no member. -/
def threeKeysSigners : List SealFinalityWitness :=
  [[1], [4], [3], [1]].map (signedBy threeKeysMessage)

theorem quorums_real_threeKeys : QuorumOf threeKeys threeKeysMessage threeKeysSigners := by
  have hnodup : ((committeeInputs threeKeys ++ threeKeysSigners.flatMap witnessInputs).dedup.map
      sha3_256).Nodup := by decide +kernel
  refine ((quorums_real 7 (by decide) threeKeys (List.cons_ne_nil _ _) 3 (by decide)).1 ⟨[0x61]⟩ 5
    Bytes32.zero).real threeKeysSigners (fun x hx y hy h => ?_) (by decide +kernel)
  exact List.inj_on_of_nodup_map hnodup (List.mem_dedup.mpr hx) (List.mem_dedup.mpr hy) h

def asciiStr (l : List UInt8) (h : ∀ b ∈ l, b < 0x80) : Str := ⟨l, Record.utf8Error_of_ascii h 0⟩

/-- With as many bytes in the middle as a length in four bytes lets go by, but for the four
bytes of a length: a zone whose path runs on and an identifier of one byte are aborted by the
message of an identifier that has swallowed all of the path but its last byte. -/
theorem abortMessage_swallowed {middle : List UInt8} (hmiddle : middle.length = 2 ^ 32 - 4)
    {id id' : Str} (hid : id.bytes = [0]) (hid' : id'.bytes = [0, 0, 0, 0, 1] ++ middle)
    (epoch : UInt64) (committee : Bytes32) :
    xzoneAbortSignableBytes id ⟨middle ++ [0, 0, 0, 1, 0x61]⟩ epoch committee =
      xzoneAbortSignableBytes id' ⟨[0x61]⟩ epoch committee := by
  have hlong : bigEndian 4 ([0, 0, 0, 0, 1] ++ middle).length = [0, 0, 0, 1] := by
    rw [List.length_append, hmiddle]
    decide
  have hpath : bigEndian 4 (middle ++ [0, 0, 0, 1, 0x61]).length = [0, 0, 0, 1] := by
    rw [List.length_append, hmiddle]
    decide
  unfold xzoneAbortSignableBytes Str.len
  rw [hid, hid', hlong, hpath]
  simp only [List.append_assoc]
  rfl

theorem abortMessage_shared : ∃ (id id' : Str) (zone zone' : ZoneId), id ≠ id' ∧ zone ≠ zone' ∧
    ∀ epoch committee, xzoneAbortSignableBytes id zone epoch committee =
      xzoneAbortSignableBytes id' zone' epoch committee := by
  obtain ⟨middle, hmiddle, hzero⟩ : ∃ middle : List UInt8, middle.length = 2 ^ 32 - 4 ∧
      ∀ b ∈ middle, b = 0 :=
    ⟨List.replicate _ 0, List.length_replicate, fun b hb => List.eq_of_mem_replicate hb⟩
  have hascii : ∀ b ∈ [0, 0, 0, 0, 1] ++ middle, b < (0x80 : UInt8) := by
    refine List.forall_mem_append.mpr ⟨?_, fun b hb => ?_⟩
    · simp only [List.forall_mem_cons]
      exact ⟨by decide, by decide, by decide, by decide, by decide, fun _ h => nomatch h⟩
    · rw [hzero b hb]
      decide
  have hzero' : ∀ b ∈ [0], b < (0x80 : UInt8) := List.forall_mem_singleton.mpr (by decide)
  refine ⟨asciiStr [0] hzero', asciiStr ([0, 0, 0, 0, 1] ++ middle) hascii, _, _,
    fun h => ?_, fun h => ?_, abortMessage_swallowed hmiddle rfl rfl⟩
  · have hlength : 1 = 5 + middle.length := (congrArg Str.len h).trans List.length_append
    omega
  · have hlength : middle.length + 5 = 1 :=
      List.length_append.symm.trans (congrArg (List.length ∘ ZoneId.path) h)
    omega

end Fixed

end ElaraMesh.Seal
