import ElaraMesh.Record.Record

/-!
# What a signature binds

The signed bytes are the fields of a record one after the other.  Most fields have
a fixed length or their length in front; the ids of the parents have neither.  Two
records with the same signed bytes agree on everything that is signed, unless the
ids of the parents are cut out of the same bytes at different places.

## Main results

* `ValidationRecord.binds_iff` — **equal signed bytes mean equal content, exactly
  if the records are not cut differently**.
* `resplit_parents` — two such records.
-/

namespace ElaraMesh
namespace Record

open Framing

namespace ValidationRecord

variable {r r' : ValidationRecord}

/-- The records agree on the signed content. -/
structure Agrees (r r' : ValidationRecord) : Prop where
  id : r.id = r'.id
  version : r.version = r'.version
  nonce : 5 ≤ r.version → r.nonce = r'.nonce
  networkId : 6 ≤ r.version → r.networkId = r'.networkId
  contentHash : r.contentHash = r'.contentHash
  creatorPublicKey : r.creatorPublicKey = r'.creatorPublicKey
  timestamp : r.timestamp = r'.timestamp
  parents : r.parents.Perm r'.parents
  classification : r.classification = r'.classification
  metadata : r.metadata = r'.metadata
  zkProof : r.zkProof = r'.zkProof

/-- The records agree on what is signed in front of the parents, and have equally
many of them. -/
structure SameFront (r r' : ValidationRecord) : Prop where
  id : r.id = r'.id
  version : r.version = r'.version
  nonce : 5 ≤ r.version → r.nonce = r'.nonce
  networkId : 6 ≤ r.version → r.networkId = r'.networkId
  contentHash : r.contentHash = r'.contentHash
  creatorPublicKey : r.creatorPublicKey = r'.creatorPublicKey
  timestamp : r.timestamp = r'.timestamp
  count : r.parents.length = r'.parents.length

/-! ### The three parts of the signed bytes -/

section

variable [FloatFormat]

def signableFront (r : ValidationRecord) : List UInt8 :=
  (if 6 ≤ r.version then
    domainTagRecordV1 ++ (bigEndian 2 r.networkId.len ++ r.networkId.bytes)
  else []) ++
  (r.id.bytes ++ (bigEndian 2 r.version.toNat ++
  ((if 5 ≤ r.version then bigEndian 8 r.nonce.toNat else []) ++
  (r.contentHash ++ (r.creatorPublicKey ++ (bigEndian 8 r.timestamp.toNat ++
  bigEndian 2 r.parents.length))))))

def zkBytes (r : ValidationRecord) : List UInt8 :=
  match r.zkProof with
  | some zk => bigEndian 4 zk.length ++ zk
  | none => bigEndian 4 0

def signableBack (r : ValidationRecord) : List UInt8 :=
  r.classification.toU8 :: (bigEndian 4 (compactMap r.metadata).length ++
  (compactMap r.metadata ++ (r.zkBytes ++
  (if 8 ≤ r.version then
    [r.sigAlgorithm, r.sphincsAlgorithm.getD 0] ++
    bigEndian 2 (r.creatorSphincsPk.getD []).length ++ r.creatorSphincsPk.getD []
  else []))))

theorem signableBytes_eq (r : ValidationRecord) :
    r.signableBytes = r.signableFront ++ (r.sortedParents.flatMap Str.bytes ++ r.signableBack) := by
  unfold signableBytes signableBytesUnder signableFront signableBack zkBytes
  cases r.zkProof with
  | none => simp only [List.append_assoc, List.cons_append, List.nil_append]
  | some zk => simp only [List.append_assoc, List.cons_append, List.nil_append]

/-- The same bytes from the parents on, cut into ids of different lengths. -/
structure Resplit (r r' : ValidationRecord) : Prop where
  front : SameFront r r'
  cut : r.sortedParents.map Str.len ≠ r'.sortedParents.map Str.len
  same : r.sortedParents.flatMap Str.bytes ++ r.signableBack =
    r'.sortedParents.flatMap Str.bytes ++ r'.signableBack

/-! ### Reading the parts off the bytes -/

omit [FloatFormat] in
/-- The network binding of version 6: it has its length in front. -/
theorem networkId_inj (hr : r.WellFormed) (hr' : r'.WellFormed) {x y : List UInt8}
    (h : bigEndian 2 r.networkId.len ++ (r.networkId.bytes ++ x) =
      bigEndian 2 r'.networkId.len ++ (r'.networkId.bytes ++ y)) :
    r.networkId = r'.networkId ∧ x = y := by
  have hlt : ∀ q : ValidationRecord, q.WellFormed → q.networkId.len < 256 ^ 2 := fun q hq =>
    hq.network_le.trans_lt (by decide)
  rw [← List.append_assoc, ← List.append_assoc] at h
  obtain ⟨hbytes, hxy⟩ := sized_append_inj (hlt r hr) (hlt r' hr') h
  exact ⟨Str.ext hbytes, hxy⟩

omit [FloatFormat] in
/-- **The fields in front of the parents** can be read off the signed bytes, if the
versions and the lengths of the ids and of the keys are the same. -/
theorem sameFront_of_eq (hr : r.WellFormed) (hr' : r'.WellFormed)
    (hversion : r.version = r'.version)
    (hid : r.id.len = r'.id.len) (hkey : r.creatorPublicKey.length = r'.creatorPublicKey.length)
    {x y : List UInt8} (h : r.signableFront ++ x = r'.signableFront ++ y) :
    SameFront r r' ∧ x = y := by
  have hcount : ∀ q : ValidationRecord, q.WellFormed → q.parents.length < 256 ^ 2 := fun q hq =>
    hq.parents_le.trans_lt (by decide)
  have h64 : ∀ n : UInt64, n.toNat < 256 ^ 8 := fun n => n.toNat_lt
  unfold signableFront at h
  rw [← hversion] at h
  simp only [List.append_assoc] at h
  -- the prefix of version 6
  have hnetwork : (6 ≤ r.version → r.networkId = r'.networkId) ∧
      r.id.bytes ++ (bigEndian 2 r.version.toNat ++
        ((if 5 ≤ r.version then bigEndian 8 r.nonce.toNat else []) ++
        (r.contentHash ++ (r.creatorPublicKey ++ (bigEndian 8 r.timestamp.toNat ++
        (bigEndian 2 r.parents.length ++ x)))))) =
      r'.id.bytes ++ (bigEndian 2 r.version.toNat ++
        ((if 5 ≤ r.version then bigEndian 8 r'.nonce.toNat else []) ++
        (r'.contentHash ++ (r'.creatorPublicKey ++ (bigEndian 8 r'.timestamp.toNat ++
        (bigEndian 2 r'.parents.length ++ y)))))) := by
    by_cases h6 : 6 ≤ r.version
    · simp only [if_pos h6, List.append_assoc, List.append_cancel_left_eq] at h
      obtain ⟨hnid, h⟩ := networkId_inj hr hr' h
      exact ⟨fun _ => hnid, h⟩
    · simp only [if_neg h6, List.nil_append] at h
      exact ⟨fun h6' => absurd h6' h6, h⟩
  obtain ⟨hnid, h⟩ := hnetwork
  obtain ⟨hid', h⟩ := List.append_inj h hid
  obtain ⟨-, h⟩ := List.append_inj h rfl
  -- the nonce of version 5
  obtain ⟨hnonce, h⟩ := List.append_inj h (by split <;> simp)
  obtain ⟨hhash, h⟩ := List.append_inj h (hr.hash_len.trans hr'.hash_len.symm)
  obtain ⟨hkey', h⟩ := List.append_inj h hkey
  obtain ⟨htime, h⟩ := List.append_inj h (by simp)
  obtain ⟨hparents, hxy⟩ := List.append_inj h (by simp)
  refine ⟨⟨Str.ext hid', hversion, ?_, hnid, hhash, hkey', ?_, ?_⟩, hxy⟩
  · intro h5
    rw [if_pos h5, if_pos h5] at hnonce
    exact UInt64.toNat_inj.mp (bigEndian_injective (h64 _) (h64 _) hnonce)
  · exact UInt64.toNat_inj.mp (bigEndian_injective (h64 _) (h64 _) htime)
  · exact bigEndian_injective (hcount r hr) (hcount r' hr') hparents

omit [FloatFormat] in
theorem zkBytes_inj (hr : r.WellFormed) (hr' : r'.WellFormed) {x y : List UInt8}
    (h : r.zkBytes ++ x = r'.zkBytes ++ y) : r.zkProof = r'.zkProof := by
  have hbytes : ∀ q : ValidationRecord, q.zkBytes = sized 4 (q.zkProof.getD []) := by
    intro q
    unfold zkBytes sized
    cases q.zkProof <;> simp
  have hlt : ∀ q : ValidationRecord, q.WellFormed → (q.zkProof.getD []).length < 256 ^ 4 := by
    intro q hq
    cases hzk : q.zkProof with
    | none => simp
    | some zk => exact (hq.zk_len zk hzk).2
  rw [hbytes, hbytes] at h
  obtain ⟨hzk, -⟩ := sized_append_inj (hlt r hr) (hlt r' hr') h
  -- an absent proof is not an empty one
  cases h1 : r.zkProof with
  | none =>
    cases h2 : r'.zkProof with
    | none => rfl
    | some zk =>
      rw [h1, h2] at hzk
      exact absurd hzk.symm (hr'.zk_len zk h2).1
  | some zk =>
    cases h2 : r'.zkProof with
    | none =>
      rw [h1, h2] at hzk
      exact absurd hzk (hr.zk_len zk h1).1
    | some zk' =>
      rw [h1, h2] at hzk
      exact congrArg some hzk

/-- **The fields behind the parents** can be read off the signed bytes. -/
theorem back_inj (hff : FloatFormat.Lawful) (hr : r.WellFormed) (hr' : r'.WellFormed)
    (h : r.signableBack = r'.signableBack) :
    r.classification = r'.classification ∧ r.metadata = r'.metadata ∧ r.zkProof = r'.zkProof := by
  obtain ⟨hclass, h⟩ := List.cons.inj h
  obtain ⟨-, h⟩ := List.append_inj h (by simp)
  obtain ⟨hmeta, h⟩ := compactMap_append_inj hff hr.finite hr'.finite h
  exact ⟨Classification.toU8_injective hclass, hmeta, zkBytes_inj hr hr' h⟩

omit [FloatFormat] in
theorem perm_sortedParents (r : ValidationRecord) : r.sortedParents.Perm r.parents :=
  List.perm_insertionSort _ _

omit [FloatFormat] in
theorem sortedParents_eq_of_perm (h : r.parents.Perm r'.parents) :
    r.sortedParents = r'.sortedParents := by
  apply List.Perm.eq_of_pairwise' (r := (· ≤ ·))
  · exact List.pairwise_insertionSort _ _
  · exact List.pairwise_insertionSort _ _
  · exact ((perm_sortedParents r).trans h).trans (perm_sortedParents r').symm

/-- **What a signature binds**: for two decoded records of one version, with ids of
one length and keys of one length, equal signed bytes mean equal signed content,
exactly if the ids of the parents are not the same bytes cut differently. -/
theorem binds_iff [Unicode] (hff : FloatFormat.Lawful) {data data' : List UInt8}
    (hdata : fromBytes data = .ok r) (hdata' : fromBytes data' = .ok r')
    (hversion : r.version = r'.version) (hid : r.id.len = r'.id.len)
    (hkey : r.creatorPublicKey.length = r'.creatorPublicKey.length) :
    (r.signableBytes = r'.signableBytes → Agrees r r') ↔ ¬ Resplit r r' := by
  have hr := wellFormed_of_fromBytes hdata
  have hr' := wellFormed_of_fromBytes hdata'
  rw [signableBytes_eq, signableBytes_eq]
  constructor
  · rintro hbinds ⟨hfront, hcut, hsame⟩
    have hhead : r.signableFront = r'.signableFront := by
      obtain ⟨h1, h2, h3, h4, h5, h6, h7, h8⟩ := hfront
      unfold signableFront
      rw [← h1, ← h2, ← h5, ← h6, ← h7, ← h8]
      split <;> rename_i hv <;> simp_all
    have hagrees := hbinds (by rw [hhead, hsame])
    exact hcut (by rw [sortedParents_eq_of_perm hagrees.parents])
  · intro hnot hbytes
    obtain ⟨hfront, hrest⟩ := sameFront_of_eq hr hr' hversion hid hkey hbytes
    have hcut : r.sortedParents.map Str.len = r'.sortedParents.map Str.len := by
      by_contra hne
      exact hnot ⟨hfront, hne, hrest⟩
    obtain ⟨hparents, hback⟩ := flatMap_append_inj Str.bytes_injective hcut hrest
    obtain ⟨hclass, hmeta, hzk⟩ := back_inj hff hr hr' hback
    refine ⟨hfront.id, hversion, hfront.nonce, hfront.networkId, hfront.contentHash,
      hfront.creatorPublicKey, hfront.timestamp, ?_, hclass, hmeta, hzk⟩
    exact (perm_sortedParents r).symm.trans (hparents ▸ perm_sortedParents r')

end

end ValidationRecord

/-! ### Two records with the same signed bytes -/

section Samples

/-- White space and case of ASCII text. -/
@[reducible] def asciiCase : Unicode where
  trim s := ((s.dropWhile (· = 0x20)).reverse.dropWhile (· = 0x20)).reverse
  toLowercase s := s.map fun c => if 0x41 ≤ c ∧ c ≤ 0x5a then c + 32 else c

@[reducible] def bitsFormat : FloatFormat where
  formatFinite bits := decimal bits.toNat ++ [0x65, 0x30]

attribute [local instance] asciiCase bitsFormat

theorem bitsFormat_lawful : FloatFormat.Lawful where
  numeric bits _ c hc := by
    rcases List.mem_append.mp hc with hc | hc
    · exact Or.inl (digit_of_mem_decimal hc)
    · have hlit : ∀ c ∈ [(0x65 : UInt8), 0x30], isNumeric c := by
        simp [isNumeric]
      exact hlit c hc
  fractional bits _ := Or.inr (List.mem_append_right _ (by decide))
  injective bits bits' _ _ h :=
    UInt64.toNat_inj.mp (decimal_injective (List.append_cancel_right h))

/-- A record of version 7 with the given parents and nothing else. -/
def sampleBytes (parents : List (List UInt8)) : List UInt8 :=
  magic ++ [0, 7, 0, 0] ++ [1, 0x72] ++ List.replicate 32 0 ++ [0, 1, 9] ++ List.replicate 8 0 ++
  [0, UInt8.ofNat parents.length] ++
  parents.flatMap (fun p => UInt8.ofNat p.length :: p) ++
  [0] ++ [0, 0] ++ [0, 0, 0, 0] ++ [0, 0]

/-- The record those bytes stand for. -/
def sampleRecord (parents : List Str) : ValidationRecord where
  id := ⟨[0x72], by decide⟩
  version := 7
  contentHash := List.replicate 32 0
  creatorPublicKey := [9]
  timestamp := 0
  parents := parents
  classification := .isPublic
  metadata := []
  signature := none
  sphincsSignature := none
  zkProof := none
  itcStamp := none
  zoneRefs := []
  creatorSphincsPk := none
  sigAlgorithm := ValidationRecord.algDilithium3
  sphincsAlgorithm := none
  zone := none
  identityHashWire := none
  nonce := 0
  networkId := Str.empty

def splitEarly : List Str := [.text "a", .text "bc"]

def splitLate : List Str := [.text "ab", .text "c"]

theorem resplit_parents :
    ValidationRecord.fromBytes (sampleBytes (splitEarly.map Str.bytes)) =
      .ok (sampleRecord splitEarly) ∧
    ValidationRecord.fromBytes (sampleBytes (splitLate.map Str.bytes)) =
      .ok (sampleRecord splitLate) ∧
    (sampleRecord splitEarly).version = (sampleRecord splitLate).version ∧
    (sampleRecord splitEarly).id.len = (sampleRecord splitLate).id.len ∧
    (sampleRecord splitEarly).creatorPublicKey.length =
      (sampleRecord splitLate).creatorPublicKey.length ∧
    (sampleRecord splitEarly).signableBytes = (sampleRecord splitLate).signableBytes ∧
    ¬ (sampleRecord splitEarly).Agrees (sampleRecord splitLate) := by
  refine ⟨rfl, rfl, rfl, rfl, rfl, by decide +kernel, ?_⟩
  intro h
  exact absurd h.parents (by decide)

/-- The order of the parents is not signed. -/
theorem binds_iff_reordered :
    (sampleRecord splitEarly).Agrees (sampleRecord splitEarly.reverse) := by
  have hdata : ∀ parents ∈ [splitEarly, splitEarly.reverse],
      ValidationRecord.fromBytes (sampleBytes (parents.map Str.bytes)) =
        .ok (sampleRecord parents) := by
    intro parents hparents
    rcases List.mem_pair.mp hparents with rfl | rfl <;> rfl
  have hbinds := ValidationRecord.binds_iff bitsFormat_lawful (hdata splitEarly (by simp))
    (hdata splitEarly.reverse (by simp)) rfl rfl rfl
  refine hbinds.mpr ?_ (by decide +kernel)
  intro h
  exact h.cut (by decide +kernel)

end Samples

end Record
end ElaraMesh
