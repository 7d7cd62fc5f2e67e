import ElaraMesh.Light.State
import ElaraMesh.Seal.Binding

/-!
# Headers of seals that nobody signed

A header is compared with the header before it, or with the baseline of the checkpoint, by
hashes that the seed sends.  Nothing in it is compared with a signature, so the chain of headers
is that of the signed seals only as long as every header that links carries what a signed seal
says.  A seed that knows the baseline can make up the rest.

## Main results

* `authentic_iff` — the headers stay authentic exactly as long as those that link are genuine;
  it is enough that they carry all of what some signed seal says.
* `authentic_forged` — a header for an epoch that was never sealed, and a record in it.
-/

namespace ElaraMesh.Light

open Ledger (foldV2MinWireVersion sealFoldV2NodeTag)
open Record (Value Unicode ZoneId ValidationRecord FloatFormat)
open Seal (MerkleProof hashesOf)
open Seal.MerkleTree (combineFor sealRootFor nodePairs nodeStep exists_root_tree verifyProof_iff
  eq_of_data_append_eq)
open Smt (Bytes32 Sha3 sha3_256)
open ZoneTree (extractEpochSeal metaField hexField)

/-! ### Nodes and records -/

/-- The bytes a node is hashed from, in the tree of a seal of the wire version. -/
def nodeBytes (version : UInt16) (p : Bytes32 × Bytes32) : List UInt8 :=
  if foldV2MinWireVersion ≤ version then sealFoldV2NodeTag ++ (p.1.data ++ p.2.data)
  else p.1.data ++ p.2.data

/-- The bytes can be those of a record: they are not those of a node. -/
def NoNode (preimage : List UInt8) : Prop :=
  preimage.length ≠ 64 ∧ ¬ sealFoldV2NodeTag <+: preimage

theorem length_pair (p : Bytes32 × Bytes32) : (p.1.data ++ p.2.data).length = 64 := by
  rw [List.length_append, p.1.size_eq, p.2.size_eq]

theorem not_noNode_nodeBytes (version : UInt16) (p : Bytes32 × Bytes32) :
    ¬ NoNode (nodeBytes version p) := by
  unfold nodeBytes
  split
  · exact fun h => h.2 (List.prefix_append _ _)
  · exact fun h => h.1 (length_pair p)

/-- The bytes of a node are those of these two nodes only, whichever the recipes are. -/
theorem eq_of_nodeBytes_eq {version version' : UInt16} {p q : Bytes32 × Bytes32}
    (h : nodeBytes version p = nodeBytes version' q) : p = q := by
  have htag : 0 < sealFoldV2NodeTag.length := by decide +kernel
  unfold nodeBytes at h
  split at h <;> split at h
  · exact eq_of_data_append_eq (List.append_cancel_left h)
  · have hlength := congrArg List.length h
    rw [List.length_append, length_pair, length_pair] at hlength
    omega
  · have hlength := congrArg List.length h
    rw [length_pair, List.length_append, length_pair] at hlength
    omega
  · exact eq_of_data_append_eq h

section

variable [Sha3]

theorem combineFor_eq (version : UInt16) (p : Bytes32 × Bytes32) :
    combineFor version p.1 p.2 = sha3_256 (nodeBytes version p) := by
  unfold combineFor nodeBytes
  split <;> rfl

/-- An accepted proof is a way to its root, by the recipe of the version. -/
theorem climb_of_verifySealProofFor {version : UInt16} {proof : MerkleProof}
    (h : Seal.MerkleTree.verifySealProofFor version proof = true) :
    Merkle.climb (combineFor version) proof.leaf (proof.siblings.map nodeStep) = proof.root := by
  unfold Seal.MerkleTree.verifySealProofFor at h
  unfold combineFor
  split at h
  · cases h
  · split at h
    · next hversion =>
      rw [if_pos hversion]
      exact verifyProof_iff.mp (Bool.and_eq_true_iff.mp h).2
    · next hversion =>
      rw [if_neg hversion]
      exact verifyProof_iff.mp (Bool.and_eq_true_iff.mp h).2

end

/-! ### Signed seals -/

section

variable [Unicode] [FloatFormat] [Sha3]

def headerFromSealWithHash (rec : ValidationRecord) : Option EpochHeader := do
  let parsed ← extractEpochSeal rec
  let startTs ← (metaField rec "epoch_start").bind Value.asF64
  let endTs ← (metaField rec "epoch_end").bind Value.asF64
  let recordCount ← (metaField rec "epoch_record_count").bind Value.asU64
  let merkleRoot ← hexField rec "epoch_merkle_root"
  let previousSealHash ← hexField rec "epoch_previous_seal"
  return {
    zone := parsed.zone
    epochNumber := parsed.epochNumber
    merkleRoot, previousSealHash
    recordCount := recordCount.toNat
    startTs, endTs
    accountSmtRoot := hexField rec "epoch_account_smt_root"
    sealRecordHash := some rec.recordHash
    sealWireVersion := rec.version }

variable {rec : ValidationRecord} {s : LightState}

theorem sealRecordHash_headerFromSeal {g : EpochHeader}
    (h : headerFromSealWithHash rec = some g) : g.sealRecordHash = some rec.recordHash := by
  simp only [headerFromSealWithHash, Option.bind_eq_bind, Option.bind_eq_some_iff] at h
  obtain ⟨_, -, _, -, _, -, _, -, _, -, _, -, hg⟩ := h
  rw [← Option.some.inj hg]

/-- The header has the epoch, the roots and the record hash of the other one. -/
structure Carries (h g : EpochHeader) : Prop where
  epochNumber : h.epochNumber = g.epochNumber
  merkleRoot : h.merkleRoot = g.merkleRoot
  accountSmtRoot : h.accountSmtRoot = g.accountSmtRoot
  sealRecordHash : h.sealRecordHash = g.sealRecordHash

variable (seals : Set ValidationRecord)

/-- A signed seal that is reached from the baseline through signed seals. -/
inductive Descends (baseline : Bytes32) : ValidationRecord → Prop where
  | first {rec : ValidationRecord} {g : EpochHeader} (hrec : rec ∈ seals)
      (hg : headerFromSealWithHash rec = some g) (hprev : g.previousSealHash = baseline) :
      Descends baseline rec
  | next {parent rec : ValidationRecord} {g : EpochHeader} (hparent : Descends baseline parent)
      (hrec : rec ∈ seals) (hg : headerFromSealWithHash rec = some g)
      (hprev : g.previousSealHash = parent.recordHash) : Descends baseline rec

variable {seals} in
theorem Descends.mem {baseline : Bytes32} (h : Descends seals baseline rec) : rec ∈ seals := by
  cases h with
  | first hrec _ _ => exact hrec
  | next _ hrec _ _ => exact hrec

/-- The header carries what a signed seal of the zone behind the baseline says. -/
def Genuine (baseline : Bytes32) (zone : ZoneId) (h : EpochHeader) : Prop :=
  ∃ rec g, headerFromSealWithHash rec = some g ∧ g.zone = zone ∧ Carries h g ∧
    Descends seals baseline rec

/-- The header carries what a signed seal of the zone says, with the hash of the seal before
it. -/
def Signed (zone : ZoneId) (h : EpochHeader) : Prop :=
  ∃ rec ∈ seals, ∃ g, headerFromSealWithHash rec = some g ∧ g.zone = zone ∧ Carries h g ∧
    h.previousSealHash = g.previousSealHash

variable (sealed : ValidationRecord → List (List UInt8)) (hashed : Set (List UInt8))

/-- SHA3-256 tells apart the bytes that are hashed; the signed seals are over records. -/
structure Ideal : Prop where
  injOn : Set.InjOn sha3_256 hashed
  ne_zero : ∀ x ∈ hashed, sha3_256 x ≠ Bytes32.zero
  root : ∀ rec ∈ seals, ∀ g, headerFromSealWithHash rec = some g →
    g.merkleRoot = sealRootFor rec.version (hashesOf (sealed rec))
  records : ∀ rec ∈ seals, ∀ x ∈ sealed rec, x ∈ hashed ∧ NoNode x
  nodes : ∀ rec ∈ seals, ∀ p ∈ nodePairs (combineFor rec.version) (hashesOf (sealed rec)),
    nodeBytes rec.version p ∈ hashed

/-- A record that the state accepts for an epoch of the zone is one of a signed seal of this
epoch. -/
def OnlySealed (zone : ZoneId) (s : LightState) : Prop :=
  ∀ (epochNumber : ℕ) (proof : MerkleProof) (preimage : List UInt8), preimage ∈ hashed →
    NoNode preimage → proof.leaf = sha3_256 preimage →
    (∀ version, ∀ q ∈ Merkle.climbPairs (combineFor version) proof.leaf
      (proof.siblings.map nodeStep), nodeBytes version q ∈ hashed) →
    s.verifyRecord zone epochNumber proof = true →
    ∃ rec ∈ seals, ∃ g, headerFromSealWithHash rec = some g ∧ g.zone = zone ∧
      g.epochNumber = epochNumber ∧ preimage ∈ sealed rec

/-- The headers of the zone are genuine, and no record is accepted that was not sealed. -/
def Authentic (baseline : Bytes32) (zone : ZoneId) (s : LightState) : Prop :=
  (∀ h ∈ s.headersOf zone, Genuine seals baseline zone h) ∧ OnlySealed seals sealed hashed zone s

variable {seals sealed hashed} {baseline : Bytes32} {zone : ZoneId}

/-! ### Records of genuine headers -/

omit [Unicode] [FloatFormat] in
/-- A way from a record ends at no hash of zeros. -/
theorem climb_ne_zero (hzero : ∀ x ∈ hashed, sha3_256 x ≠ Bytes32.zero) {preimage : List UInt8}
    (hpreimage : preimage ∈ hashed) {version : UInt16} {path : List (Bytes32 × Bool)}
    (hpath : ∀ q ∈ Merkle.climbPairs (combineFor version) (sha3_256 preimage) path,
      nodeBytes version q ∈ hashed) :
    Merkle.climb (combineFor version) (sha3_256 preimage) path ≠ Bytes32.zero := by
  induction path using List.reverseRecOn with
  | nil => exact hzero preimage hpreimage
  | append_singleton path s _ =>
    rw [Merkle.climbPairs_append] at hpath
    have hlast := hzero _ (hpath _ (List.mem_append_right _ List.mem_cons_self))
    rw [← combineFor_eq] at hlast
    rw [Merkle.climb_append]
    show Merkle.ascend _ _ s ≠ _
    unfold Merkle.ascend
    split at hlast <;> simp_all

/-- A way from a record to the root of a signed seal starts from a record of the seal, whatever
recipe it is walked by. -/
theorem Ideal.mem_sealed (hideal : Ideal seals sealed hashed)
    (hrec : rec ∈ seals) {preimage : List UInt8} (hpreimage : preimage ∈ hashed)
    (hrecord : NoNode preimage) {version : UInt16} {path : List (Bytes32 × Bool)}
    (hpath : ∀ q ∈ Merkle.climbPairs (combineFor version) (sha3_256 preimage) path,
      nodeBytes version q ∈ hashed)
    (hclimb : Merkle.climb (combineFor version) (sha3_256 preimage) path =
      sealRootFor rec.version (hashesOf (sealed rec))) : preimage ∈ sealed rec := by
  have hne : sealed rec ≠ [] := by
    intro hnil
    rw [hnil] at hclimb
    exact climb_ne_zero hideal.ne_zero hpreimage hpath hclimb
  obtain ⟨t, hleaves, hroot, hpairs⟩ := exists_root_tree (combineFor rec.version)
    (Seal.hashesOf_ne_nil hne)
  have hinj : ∀ q ∈ {q | nodeBytes version q ∈ hashed},
      ∀ q' ∈ {q | nodeBytes rec.version q ∈ hashed},
      combineFor version q.1 q.2 = combineFor rec.version q'.1 q'.2 → q = q' := by
    intro q hq q' hq' heq
    rw [combineFor_eq, combineFor_eq] at heq
    exact eq_of_nodeBytes_eq (hideal.injOn hq hq' heq)
  -- no hash of a record is that of a node
  have hground : ∀ v, ∀ p ∈ {q | nodeBytes v q ∈ hashed}, combineFor v p.1 p.2 ∉
      {h | ∃ x ∈ hashed, NoNode x ∧ sha3_256 x = h} := by
    rintro v p hp ⟨x, hx, hrecord, heq⟩
    rw [combineFor_eq] at heq
    exact not_noNode_nodeBytes v p (hideal.injOn hx hp heq ▸ hrecord)
  have hmem : sha3_256 preimage ∈ t.leaves := by
    refine Merkle.mem_leaves_of_climb hinj (hground version) (hground rec.version)
      ⟨preimage, hpreimage, hrecord, rfl⟩ hpath
      (fun q hq => hideal.nodes rec hrec q (hpairs q hq)) (fun b hb => ?_) (hclimb.trans hroot)
    rw [hleaves] at hb
    obtain ⟨x, hx, rfl⟩ := List.mem_map.mp hb
    exact ⟨x, (hideal.records rec hrec x hx).1, (hideal.records rec hrec x hx).2, rfl⟩
  rw [hleaves] at hmem
  obtain ⟨x, hx, heq⟩ := List.mem_map.mp hmem
  rw [← hideal.injOn (hideal.records rec hrec x hx).1 hpreimage heq]
  exact hx

/-- With genuine headers only, no record is accepted that was not sealed. -/
theorem onlySealed_of_genuine (hideal : Ideal seals sealed hashed)
    (hgenuine : ∀ h ∈ s.headersOf zone, Genuine seals baseline zone h) :
    OnlySealed seals sealed hashed zone s := by
  intro epochNumber proof preimage hpreimage hrecord hleaf hpath hverify
  unfold LightState.verifyRecord at hverify
  cases hfind : (s.headersOf zone).find? fun h => h.epochNumber = epochNumber with
  | none =>
    rw [hfind] at hverify
    cases hverify
  | some h =>
    rw [hfind] at hverify
    dsimp only at hverify
    split at hverify
    · cases hverify
    · next hroot =>
      obtain ⟨rec, g, hg, hzone, hcarries, hdescends⟩ := hgenuine h
        (List.mem_of_find?_eq_some hfind)
      have hclimb := climb_of_verifySealProofFor hverify
      rw [not_not.mp hroot, hcarries.merkleRoot, hideal.root rec hdescends.mem g hg, hleaf] at hclimb
      rw [hleaf] at hpath
      have hepoch := List.find?_some hfind
      exact ⟨rec, hdescends.mem, g, hg, hzone, hcarries.epochNumber.symm.trans
        (of_decide_eq_true hepoch), hideal.mem_sealed hdescends.mem hpreimage hrecord (hpath _)
        hclimb⟩

/-! ### Runs -/

/-- One more header keeps the headers of a zone genuine unless it links and is not. -/
theorem genuine_addHeader_iff
    (hs : ∀ h ∈ s.headersOf zone, Genuine seals baseline zone h) (header : EpochHeader) :
    (∀ h ∈ (s.addHeader header).1.headersOf zone, Genuine seals baseline zone h) ↔
      (header.zone = zone → s.Links header → Genuine seals baseline zone header) := by
  obtain ⟨heq, hnot⟩ | ⟨heq, hzone, hlinks⟩ := LightState.headersOf_addHeader s header zone
  · rw [heq]
    exact iff_of_true hs fun hzone hlinks => absurd hlinks (hnot hzone)
  · rw [heq, List.forall_mem_append, and_iff_right hs, List.forall_mem_singleton]
    exact ⟨fun h _ _ => h, fun h => h hzone hlinks⟩

theorem genuine_run_iff
    (hs : ∀ h ∈ s.headersOf zone, Genuine seals baseline zone h) (offered : List EpochHeader) :
    (∀ before, before <+: offered →
        ∀ h ∈ (s.run before).headersOf zone, Genuine seals baseline zone h) ↔
      ∀ before header, before ++ [header] <+: offered → header.zone = zone →
        (s.run before).Links header → Genuine seals baseline zone header :=
  Runs.forall_prefix_iff (J := fun _ => True)
    (I := fun s : LightState => ∀ h ∈ s.headersOf zone, Genuine seals baseline zone h)
    (C := fun s (header : EpochHeader) => header.zone = zone → s.Links header →
      Genuine seals baseline zone header) (fun _ _ _ => trivial)
    (fun _ header _ hs => genuine_addHeader_iff hs header) trivial hs offered

/-- The baseline, or what the last header gives for its seal, is where a signed header that
links descends from. -/
theorem genuine_of_signed {cpEnd : ℕ}
    (hbaseline : s.checkpointBaseline zone = some (cpEnd, baseline))
    (hs : ∀ h ∈ s.headersOf zone, Genuine seals baseline zone h) {header : EpochHeader}
    (hzone : header.zone = zone) (hlinks : s.Links header) (hsigned : Signed seals zone header) :
    Genuine seals baseline zone header := by
  obtain ⟨rec, hrec, g, hg, hgzone, hcarries, hprev⟩ := hsigned
  refine ⟨rec, g, hg, hgzone, hcarries, ?_⟩
  unfold LightState.Links at hlinks
  rw [hzone] at hlinks
  cases hlast : (s.headersOf zone).getLast? with
  | none =>
    rw [hlast] at hlinks
    exact .first hrec hg (hprev.symm.trans (hlinks cpEnd baseline hbaseline).2.2)
  | some last =>
    rw [hlast] at hlinks
    obtain ⟨parent, g', hg', -, hcarries', hdescends⟩ := hs last (List.mem_of_getLast? hlast)
    have hhash := hcarries'.sealRecordHash.trans (sealRecordHash_headerFromSeal hg')
    have hfollows := hlinks.2
    unfold LightState.follows at hfollows
    rw [hhash, Bool.and_eq_true_iff] at hfollows
    exact .next hdescends hrec hg (hprev.symm.trans (of_decide_eq_true hfollows.2))

/-- Along every sequence of headers the zone stays authentic if and only if its headers are
genuine at the start and each header that links is genuine.  From a checkpoint with the baseline
on, it is enough that each header that links carries what a signed seal says. -/
theorem authentic_iff (hideal : Ideal seals sealed hashed) (baseline : Bytes32) (zone : ZoneId)
    (s : LightState) (offered : List EpochHeader) :
    ((∀ before, before <+: offered →
        Authentic seals sealed hashed baseline zone (s.run before)) ↔
      (∀ h ∈ s.headersOf zone, Genuine seals baseline zone h) ∧
        ∀ before header, before ++ [header] <+: offered → header.zone = zone →
          (s.run before).Links header → Genuine seals baseline zone header) ∧
    (∀ cpEnd, s.checkpointBaseline zone = some (cpEnd, baseline) → s.headersOf zone = [] →
      (∀ before header, before ++ [header] <+: offered → header.zone = zone →
        (s.run before).Links header → Signed seals zone header) →
      ∀ before, before <+: offered →
        Authentic seals sealed hashed baseline zone (s.run before)) := by
  have hrecords := fun (before : List EpochHeader)
    (h : ∀ h ∈ (s.run before).headersOf zone, Genuine seals baseline zone h) =>
      (⟨h, onlySealed_of_genuine hideal h⟩ : Authentic seals sealed hashed baseline zone _)
  refine ⟨⟨fun h => ?_, ?_⟩, fun cpEnd hbaseline hnil hsteps before hpre => ?_⟩
  · have hstart := (h [] List.nil_prefix).1
    exact ⟨hstart, (genuine_run_iff hstart offered).mp fun before hpre => (h before hpre).1⟩
  · rintro ⟨hstart, hsteps⟩ before hpre
    exact hrecords before ((genuine_run_iff hstart offered).mpr hsteps before hpre)
  · have hstart : ∀ h ∈ s.headersOf zone, Genuine seals baseline zone h := by
      rw [hnil]
      exact fun _ h => nomatch h
    refine hrecords before (Runs.forall_prefixes
      (J := fun s : LightState => s.checkpointBaseline zone = some (cpEnd, baseline))
      (I := fun s : LightState => ∀ h ∈ s.headersOf zone, Genuine seals baseline zone h)
      (C := fun s (header : EpochHeader) => header.zone = zone → s.Links header → Signed seals zone header)
      (fun s header hs => ?_) (fun s header hj hs hsigned => ?_) hbaseline hstart hsteps before
      hpre)
    · unfold LightState.checkpointBaseline at hs ⊢
      rw [LightState.checkpoints_addHeader]
      exact hs
    · exact (genuine_addHeader_iff hs header).mpr fun hzone hlinks =>
        genuine_of_signed hj hs hzone hlinks (hsigned hzone hlinks)

end

/-! ### A forged header -/

section

attribute [local instance] Record.asciiCase Record.bitsFormat Smt.guardedSha3

def sealOf (epochNumber : ℤ) (root previous : Bytes32) : ValidationRecord :=
  { Record.sampleRecord [] with
    id := .text "seal"
    metadata := [
      (.text "epoch_end", .number (.int 1)),
      (.text "epoch_merkle_root", .string (.hex root.data)),
      (.text "epoch_number", .number (.int epochNumber)),
      (.text "epoch_op", .string (.text "seal")),
      (.text "epoch_previous_seal", .string (.hex previous.data)),
      (.text "epoch_record_count", .number (.int 1)),
      (.text "epoch_start", .number (.int 0)),
      (.text "epoch_zone", .number (.int 0))] }

/-- The seal of epoch 5, over the record of the byte 1. -/
def anchorSeal : ValidationRecord := sealOf 5 ZoneTree.recordHash Bytes32.zero

def anchorHash : Bytes32 where
  data := [
    0x3b, 0x32, 0x7e, 0xf7, 0xeb, 0x25, 0x40, 0x8e,
    0x55, 0xc6, 0x46, 0xe9, 0xf6, 0x4f, 0x0f, 0xee,
    0xee, 0x4d, 0x2c, 0x75, 0x2f, 0x1b, 0x99, 0xd0,
    0x2e, 0x53, 0x9e, 0x00, 0x7a, 0x11, 0xa2, 0x5b]
  size_eq := rfl

theorem recordHash_anchorSeal : anchorSeal.recordHash = anchorHash := by decide +kernel

def nextSeal : ValidationRecord := sealOf 6 ZoneTree.recordHash anchorHash

def zone0 : ZoneId := Consensus.zoneFromLegacy 0

/-- A client with a checkpoint that ends with epoch 5. -/
def anchored : LightState :=
  { LightState.new with
    checkpoints := AList.insert zone0
      ⟨zone0, 0, 5, 6, .text "super", Bytes32.zero, Bytes32.zero, true, .anchorPinned,
        some anchorHash⟩ ∅ }

/-- Every seal is over the record of the byte 1. -/
def oneRecord (_ : ValidationRecord) : List (List UInt8) := [[1]]

theorem root_headers : ∀ rec ∈ [anchorSeal, nextSeal],
    (headerFromSealWithHash rec).map EpochHeader.merkleRoot = some ZoneTree.recordHash := by
  intro rec hrec
  obtain rfl | rfl := List.mem_pair.mp hrec <;> decide +kernel

theorem ideal_of_subset {seals : Set ValidationRecord}
    (hseals : ∀ rec ∈ seals, rec ∈ [anchorSeal, nextSeal]) :
    Ideal seals oneRecord {[1], [2]} where
  injOn := by
    have hne : sha3_256 [1] ≠ sha3_256 [2] := by decide +kernel
    rw [Set.injOn_pair]
    exact fun h => absurd h hne
  ne_zero := by
    rintro x (rfl | rfl) <;> decide +kernel
  root := by
    intro rec hrec g hg
    have hroot := root_headers rec (hseals rec hrec)
    rw [hg] at hroot
    exact (Option.some.inj hroot).trans ZoneTree.sha3_one.symm
  records := by
    intro rec _ x hx
    obtain rfl := List.mem_singleton.mp hx
    exact ⟨Or.inl rfl, by decide, by decide +kernel⟩
  nodes := fun _ _ _ hp => nomatch hp

/-- A header for epoch 6 that names the baseline; its root is the hash of the byte 2. -/
def forgedHeader : EpochHeader :=
  ⟨zone0, 6, sha3_256 [2], anchorHash, 1, F64.zero, F64.zero, none, none, 7⟩

/-- The empty path of the only record. -/
def forgedProof : MerkleProof := ⟨sha3_256 [2], [], sha3_256 [2], 2⟩

/-- Only the seal of epoch 5 was signed, and its hash is the baseline.  The forged header is
taken, and the record of the byte 2 is accepted, which no seal contains. -/
theorem authentic_forged :
    Ideal {anchorSeal} oneRecord {[1], [2]} ∧
    anchored.checkpointBaseline zone0 = some (5, anchorSeal.recordHash) ∧
    (anchored.addHeader forgedHeader).2 = .ok () ∧
    (anchored.run [forgedHeader]).verifyRecord zone0 6 forgedProof = true ∧
    ¬ Authentic {anchorSeal} oneRecord {[1], [2]} anchorSeal.recordHash zone0
      (anchored.run [forgedHeader]) := by
  have hverify : (anchored.run [forgedHeader]).verifyRecord zone0 6 forgedProof = true := by
    decide +kernel
  refine ⟨ideal_of_subset fun rec hrec => ?_, ?_, by decide +kernel, hverify, fun h => ?_⟩
  · rw [Set.mem_singleton_iff.mp hrec]
    exact List.mem_cons_self
  · rw [recordHash_anchorSeal]
    decide +kernel
  · obtain ⟨rec, -, -, -, -, -, hmem⟩ := h.2 6 forgedProof [2] (Or.inr rfl)
      ⟨by decide, by decide +kernel⟩ rfl (fun _ _ hq => nomatch hq) hverify
    exact absurd (List.mem_singleton.mp hmem) (by decide)

def nextHeader : EpochHeader := (headerFromSealWithHash nextSeal).get (by decide +kernel)

/-- The headers stay authentic with that of the signed seal of epoch 6. -/
theorem authentic_iff_next :
    (anchored.run [nextHeader]).headersOf zone0 = [nextHeader] ∧
    Authentic {anchorSeal, nextSeal} oneRecord {[1], [2]} anchorSeal.recordHash zone0
      (anchored.run [nextHeader]) := by
  have hideal : Ideal {anchorSeal, nextSeal} oneRecord {[1], [2]} :=
    ideal_of_subset fun rec hrec => List.mem_pair.mpr hrec
  have hbaseline : anchored.checkpointBaseline zone0 = some (5, anchorSeal.recordHash) := by
    rw [recordHash_anchorSeal]
    decide +kernel
  refine ⟨by decide +kernel, (authentic_iff hideal _ zone0 anchored [nextHeader]).2 5 hbaseline
    (by decide +kernel) (fun before header hpre _ _ => ?_) _ (List.prefix_refl _)⟩
  obtain rfl := List.mem_singleton.mp
    (hpre.subset (List.mem_append_right before List.mem_cons_self))
  exact ⟨nextSeal, Or.inr rfl, nextHeader, (Option.some_get _).symm, by decide +kernel,
    ⟨rfl, rfl, rfl, rfl⟩, rfl⟩

end

end ElaraMesh.Light
