import ElaraMesh.ZoneTree.Canonical
import ElaraMesh.Record.Identity
import ElaraMesh.Seal.Merkle

/-!
# Inclusion of a record, for an auditor

An auditor is handed a proof that the hash of a record is a leaf under the root of a zone, and
walks it offline.  The walk ties neither the number of the siblings nor their sides to the
leaf; what it cannot do is to start from anything but a leaf, since nodes are hashed from 64
bytes, the empty subtree from none, and a record from neither.

## Main results

* `verifyInclusion_pass` — what a passed check says.
* `mem_of_walk` — a walk from the hash of a record to the root starts from a leaf.
* `inclusion_sound` — what `verifyProof` or `verifyInclusion` accept is in the tree.
-/

namespace ElaraMesh.ZoneTree

open Record (Str Value Unicode ZoneId hexDecode)
open Smt (Bytes32 Sha3 sha3_256 emptyHash)

/-! ### The offline check -/

/-- Why a proof is not looked at, with what the message names. -/
inductive InclusionError where
  | notJson
  | noLeaf
  | noRoot
  | siblingHash
  | sideNotBool
  | sideMissing
  | tooManySiblings (count : ℕ)
  | expectRoot
  deriving DecidableEq

/-- The verdict of a check: proven, not confirmed, or forged. -/
inductive Status where
  | pass
  | partly
  | fail
  deriving DecidableEq

inductive CheckName where
  | recordInclusion
  | sealedRootBind
  deriving DecidableEq

structure Check where
  name : CheckName
  status : Status
  deriving DecidableEq

structure InclusionFacts where
  leaf : Bytes32
  root : Bytes32
  deriving DecidableEq

def Status.of (proven : Bool) : Status := if proven then .pass else .fail

def getKey (key : String) : Value → Option Value
  | .object fields => fields.lookup (.text key)
  | _ => none

def hash32 (data : List UInt8) : Option Bytes32 :=
  if h : data.length = 32 then some ⟨data, h⟩ else none

section

variable [Unicode]

def hash32FromHex (text : List UInt8) : Option Bytes32 :=
  (hexDecode (Unicode.trim text)).bind hash32

def hash32FromJson : Option Value → Option Bytes32
  | some (.string s) => hash32FromHex s.bytes
  | _ => none

/-- A sibling: its side must be given as a boolean. -/
def readSibling (s : Value) : Except InclusionError SparseMerkleProofNode :=
  match hash32FromJson (getKey "hash" s) with
  | none => .error .siblingHash
  | some hash =>
    match getKey "is_right" s with
    | some (.bool isRight) => .ok ⟨hash, isRight⟩
    | some _ => .error .sideNotBool
    | none => .error .sideMissing

def readSiblings (proof : Value) : Except InclusionError (List SparseMerkleProofNode) :=
  match getKey "siblings" proof with
  | some (.array items) => items.mapM readSibling
  | _ => .ok []

variable [Sha3]

def verifyPath (leaf root : Bytes32) (siblings : List SparseMerkleProofNode)
    (expectRootHex : Option Str) (checks : List Check) :
    Except InclusionError InclusionFacts × List Check :=
  if siblings.length > maxDepth then (.error (.tooManySiblings siblings.length), checks)
  else if siblings = [] then (.ok ⟨leaf, root⟩, checks ++ [⟨.recordInclusion, .fail⟩])
  else
    let checks := checks ++ [⟨.recordInclusion, .of (walk leaf siblings = root)⟩]
    match expectRootHex with
    | none => (.ok ⟨leaf, root⟩, checks ++ [⟨.sealedRootBind, .partly⟩])
    | some hex =>
      match hash32FromHex hex.bytes with
      | none => (.error .expectRoot, checks)
      | some expect => (.ok ⟨leaf, root⟩, checks ++ [⟨.sealedRootBind, .of (root = expect)⟩])

/-- Check a proof; `none` stands for bytes that are not JSON. -/
def verifyInclusion (proof : Option Value) (expectRootHex : Option Str) (checks : List Check) :
    Except InclusionError InclusionFacts × List Check :=
  match proof with
  | none => (.error .notJson, checks)
  | some obj =>
    match hash32FromJson (getKey "leaf" obj) with
    | none => (.error .noLeaf, checks)
    | some leaf =>
      match hash32FromJson (getKey "root" obj) with
      | none => (.error .noRoot, checks)
      | some root =>
        match readSiblings obj with
        | .error e => (.error e, checks)
        | .ok siblings => verifyPath leaf root siblings expectRootHex checks

/-- The inclusion of a record passes only with a walk of 1 to 64 siblings to the root. -/
theorem verifyPath_pass {leaf root : Bytes32} {siblings : List SparseMerkleProofNode}
    {expectRootHex : Option Str}
    (h : ⟨.recordInclusion, .pass⟩ ∈ (verifyPath leaf root siblings expectRootHex []).2) :
    1 ≤ siblings.length ∧ siblings.length ≤ maxDepth ∧ walk leaf siblings = root := by
  have hwalk : (⟨.recordInclusion, .pass⟩ : Check) ∈
      [(⟨.recordInclusion, .of (walk leaf siblings = root)⟩ : Check)] → walk leaf siblings = root := by
    intro hmem
    have hstatus := (Check.mk.inj (List.mem_singleton.mp hmem)).2
    by_contra hne
    rw [Status.of, decide_eq_false hne] at hstatus
    cases hstatus
  have hbind : ∀ status : Status,
      (⟨.recordInclusion, .pass⟩ : Check) ∉ [(⟨.sealedRootBind, status⟩ : Check)] := by
    intro status hmem
    exact nomatch (Check.mk.inj (List.mem_singleton.mp hmem)).1
  unfold verifyPath at h
  split at h
  · exact absurd h List.not_mem_nil
  · next hlen =>
    split at h
    · exact nomatch (Check.mk.inj (List.mem_singleton.mp h)).2
    · next hne =>
      refine ⟨List.length_pos_iff.mpr hne, not_lt.mp hlen, hwalk ?_⟩
      dsimp only at h
      split at h
      · exact (List.mem_append.mp h).resolve_right (hbind _)
      · split at h
        · exact h
        · exact (List.mem_append.mp h).resolve_right (hbind _)

theorem verifyInclusion_pass {obj : Value} {expectRootHex : Option Str}
    (h : ⟨.recordInclusion, .pass⟩ ∈ (verifyInclusion (some obj) expectRootHex []).2) :
    ∃ leaf root siblings, hash32FromJson (getKey "leaf" obj) = some leaf ∧
      hash32FromJson (getKey "root" obj) = some root ∧ readSiblings obj = .ok siblings ∧
      1 ≤ siblings.length ∧ siblings.length ≤ maxDepth ∧ walk leaf siblings = root := by
  unfold verifyInclusion at h
  dsimp only at h
  split at h
  · exact absurd h List.not_mem_nil
  · next leaf hleaf =>
    split at h
    · exact absurd h List.not_mem_nil
    · next root hroot =>
      split at h
      · exact absurd h List.not_mem_nil
      · next siblings hsiblings =>
        exact ⟨leaf, root, siblings, hleaf, hroot, hsiblings, verifyPath_pass h⟩

end

/-! ### Soundness of the walk -/

/-- The bytes may be those of a record: there are some, and not as many as of two hashes. -/
def IsLeafInput (preimage : List UInt8) : Prop := preimage ≠ [] ∧ preimage.length ≠ 64

def nodeInput (p : Bytes32 × Bytes32) : List UInt8 := p.1.data ++ p.2.data

theorem length_nodeInput (p : Bytes32 × Bytes32) : (nodeInput p).length = 64 := by
  rw [nodeInput, List.length_append, p.1.size_eq, p.2.size_eq]

theorem nodeInput_injective : Function.Injective nodeInput := fun _ _ =>
  Seal.MerkleTree.eq_of_data_append_eq

theorem not_isLeafInput_nodeInput (p : Bytes32 × Bytes32) : ¬ IsLeafInput (nodeInput p) :=
  fun h => h.2 (length_nodeInput p)

/-- The bytes of the records, and those of the empty subtree. -/
def recordInputs (leaves : Set Bytes32) (record : Bytes32 → List UInt8) : Set (List UInt8) :=
  insert [] (record '' leaves)

theorem mem_of_leafAt_ne {present : Finset Bytes32} {x : List Bool}
    (h : leafAt present x ≠ emptyHash) : leafAt present x ∈ present := by
  by_cases hex : ∃ l, l ∈ present ∧ place l = x
  · rw [leafAt, pick, dif_pos hex]
    exact hex.choose_spec.1
  · exact absurd (leafAt_of_forall_ne fun l hl hx => hex ⟨l, hl, hx⟩) h

theorem leafAt_singleton (l : Bytes32) : leafAt {l} (place l) = l :=
  leafAt_of_mem (by rw [Finset.coe_singleton]; exact Set.injOn_singleton _ _)
    (Finset.mem_singleton_self l)

theorem take_place_self (l : Bytes32) : (place l).take 64 = place l := take_place l

section

variable [Sha3]

/-- The bytes that are hashed for the tree over some leaves. -/
def treeInputs (present : Finset Bytes32) : Set (List UInt8) :=
  {i | ∃ π, π.length < 64 ∧
    ¬ (zoneTree.sub (leafAt present) (π ++ [false]) = emptyHash ∧
      zoneTree.sub (leafAt present) (π ++ [true]) = emptyHash) ∧
    i = nodeInput (zoneTree.sub (leafAt present) (π ++ [false]),
      zoneTree.sub (leafAt present) (π ++ [true]))}

def walkInputs (preimage : List UInt8) (siblings : List SparseMerkleProofNode) :
    Set (List UInt8) :=
  {i | i ∈ preimage :: (Merkle.climbPairs nodeHash (sha3_256 preimage)
    (siblings.map fun s => (s.hash, s.isRight))).map nodeInput}

/-- A walk from the hash of a record to the root of a tree over hashes of records starts from a
leaf of the tree. -/
theorem mem_of_walk {present : Finset Bytes32} {record : Bytes32 → List UInt8}
    (hrecords : ∀ l ∈ present, IsLeafInput (record l) ∧ sha3_256 (record l) = l)
    (hempty : sha3_256 [] = emptyHash) {preimage : List UInt8} (hpreimage : IsLeafInput preimage)
    {siblings : List SparseMerkleProofNode}
    (hinj : Set.InjOn sha3_256 (recordInputs present record ∪ treeInputs present ∪
      walkInputs preimage siblings))
    (hwalk : walk (sha3_256 preimage) siblings = referenceRoot present) :
    sha3_256 preimage ∈ present := by
  set I := recordInputs present record ∪ treeInputs present ∪ walkInputs preimage siblings with hI
  have hnil : [] ∈ I := Or.inl (Or.inl (Set.mem_insert _ _))
  have hstart : preimage ∈ I := Or.inr List.mem_cons_self
  have hrecord : ∀ l ∈ present, record l ∈ I := fun l hl =>
    Or.inl (Or.inl (Set.mem_insert_of_mem _ ⟨l, hl, rfl⟩))
  -- no node is hashed to the empty hash, to a leaf or to the hash the walk starts from
  have hbinding : Merkle.Binding zoneTree.node {p | nodeInput p ∈ I}
      {a | a = emptyHash ∨ a ∈ present ∨ a = sha3_256 preimage} := by
    refine ⟨fun p hp q hq h => nodeInput_injective (hinj hp hq h), fun p hp h => ?_⟩
    rcases h with h | h | h
    · have hlen := congrArg List.length (hinj hp hnil (Eq.trans h hempty.symm))
      rw [length_nodeInput] at hlen
      cases hlen
    · have heq := hinj hp (hrecord _ h) (hrecords _ h).2.symm
      exact not_isLeafInput_nodeInput p (heq ▸ (hrecords _ h).1)
    · exact not_isLeafInput_nodeInput p (hinj hp hstart h ▸ hpreimage)
  have hleaves : ∀ a ∈ (zoneTree.tree (leafAt present) 64 []).leaves,
      a = emptyHash ∨ a ∈ present := by
    intro a ha
    rcases HashTree.mem_leaves_tree ha with h | ⟨y, -, rfl⟩
    · exact Or.inl h
    · by_cases hy : leafAt present ([] ++ y) = emptyHash
      · exact Or.inl hy
      · exact Or.inr (mem_of_leafAt_ne hy)
  have hmem : sha3_256 preimage ∈ (zoneTree.tree (leafAt present) 64 []).leaves := by
    refine hbinding.mem_leaves (Or.inr (Or.inr rfl))
      (p := siblings.map fun s => (s.hash, s.isRight)) (fun q hq => ?_) (fun q hq => ?_)
      (fun a ha => (hleaves a ha).imp_right Or.inl) ?_
    · exact Or.inr (List.mem_cons_of_mem _ (List.mem_map_of_mem hq))
    · obtain ⟨j, y, hj, hlen, rfl, hne⟩ := HashTree.mem_pairs_tree hq
      have hsub : ∀ b, zoneTree.sub (leafAt present) (y ++ [b]) =
          zoneTree.hash (leafAt present) j ([] ++ y ++ [b]) := by
        intro b
        rw [HashTree.sub, List.nil_append, List.length_append, List.length_singleton,
          zoneTree_depth, show 64 - (y.length + 1) = j by omega]
      refine Or.inl (Or.inr ⟨y, by omega, ?_⟩)
      rw [hsub, hsub]
      exact ⟨hne, rfl⟩
    · rw [HashTree.hash_tree]
      exact (walk_eq_climb _ _).symm.trans hwalk
  refine (hleaves _ hmem).resolve_left fun h => hpreimage.1 ?_
  exact hinj hstart hnil (h.trans hempty.symm)

/-- What `verifyProof`, or `verifyInclusion` with a passed check, accept for the hash of a record
against the root of a tree over hashes of records, with siblings of any number, hashes and sides,
is a leaf of the tree. -/
theorem inclusion_sound [Unicode] (zone : ZoneId) (ops : List Op) (record : Bytes32 → List UInt8)
    (hrecords : ∀ l ∈ leavesOf ops, IsLeafInput (record l) ∧ sha3_256 (record l) = l)
    (hapart : Apart (leavesOf ops)) (hempty : sha3_256 [] = emptyHash) {preimage : List UInt8}
    (hpreimage : IsLeafInput preimage) (siblings : List SparseMerkleProofNode)
    (hinj : Set.InjOn sha3_256 (recordInputs (leavesOf ops) record ∪
      treeInputs (Contents.after ops).present ∪ walkInputs preimage siblings)) :
    (verifyProof ⟨sha3_256 preimage, ((SparseMerkleTree.new .empty zone).run ops).root, siblings,
        zone⟩ = true → sha3_256 preimage ∈ (Contents.after ops).present) ∧
    ∀ (obj : Value) (expectRootHex : Option Str),
      hash32FromJson (getKey "leaf" obj) = some (sha3_256 preimage) →
      hash32FromJson (getKey "root" obj) =
        some ((SparseMerkleTree.new .empty zone).run ops).root →
      readSiblings obj = .ok siblings →
      ⟨.recordInclusion, .pass⟩ ∈ (verifyInclusion (some obj) expectRootHex []).2 →
      sha3_256 preimage ∈ (Contents.after ops).present := by
  have hnot : emptyHash ∉ leavesOf ops := by
    intro hmem
    have heq := hinj (Or.inl (Or.inl (Set.mem_insert_of_mem _ ⟨_, hmem, rfl⟩)))
      (Or.inl (Or.inl (Set.mem_insert _ _))) ((hrecords _ hmem).2.trans hempty.symm)
    exact (hrecords _ hmem).1.1 heq
  have hfollows := follows_run zone ops hnot hapart
  have hwalk : walk (sha3_256 preimage) siblings =
      ((SparseMerkleTree.new .empty zone).run ops).root →
      sha3_256 preimage ∈ (Contents.after ops).present := by
    intro hwalk
    refine mem_of_walk (fun l hl => hrecords l (hfollows.present_subset hl)) hempty hpreimage
      (hinj.mono ?_) (hwalk.trans hfollows.shows_present.root_eq)
    refine Set.union_subset_union_left _ (Set.union_subset_union_left _ ?_)
    exact Set.insert_subset_insert (Set.image_mono hfollows.present_subset)
  refine ⟨fun h => hwalk (of_decide_eq_true h), fun obj expectRootHex hleaf hroot hsiblings h => ?_⟩
  obtain ⟨leaf, root, siblings', hleaf', hroot', hsiblings', -, -, hok⟩ := verifyInclusion_pass h
  obtain rfl := Option.some.inj (hleaf.symm.trans hleaf')
  obtain rfl := Option.some.inj (hroot.symm.trans hroot')
  obtain rfl := Except.ok.inj (hsiblings.symm.trans hsiblings')
  exact hwalk hok

/-! ### A tree with one leaf -/

section

variable {l : Bytes32}

theorem resident_singleton {y : List Bool} (hy : zoneTree.Resident (leafAt {l}) y) :
    y = place l := by
  by_contra hne
  refine hy.2 (leafAt_of_forall_ne fun m hm => ?_)
  rw [Finset.mem_singleton.mp hm]
  exact Ne.symm hne

theorem occupied_singleton (hl : l ≠ emptyHash) {π : List Bool} (hπ : π <+: place l) :
    zoneTree.Occupied (leafAt {l}) π :=
  ⟨place l, ⟨length_place l, by rw [leafAt_singleton]; exact hl⟩, hπ⟩

/-- Beside the way of the leaf there is nothing. -/
theorem sub_beside_singleton (hn : NodesNeverEmpty) {d : ℕ} (hd : d < 64) :
    zoneTree.sub (leafAt {l}) ((place l).take d ++ [!(place l).getD d false]) = emptyHash := by
  refine (HashTree.sub_eq_empty_iff hn.proper (by simp; omega)).mpr ?_
  rintro ⟨y, hy, hpre⟩
  rw [resident_singleton hy] at hpre
  exact HashTree.not_prefix_sibling (by simpa using hd) hpre

/-- The hashes above a leaf that is alone, from the bottom up. -/
def chainUp (x : List Bool) : ℕ → Bytes32 → List Bytes32
  | 0, _ => []
  | d + 1, h => zoneTree.lift (x.getD d false) h :: chainUp x d (zoneTree.lift (x.getD d false) h)

theorem chainUp_eq (hn : NodesNeverEmpty) (hl : l ≠ emptyHash) : ∀ {d : ℕ}, d ≤ 64 →
    chainUp (place l) d (zoneTree.sub (leafAt {l}) ((place l).take d)) =
      (List.range d).reverse.map fun j => zoneTree.sub (leafAt {l}) ((place l).take j) := by
  intro d
  induction d with
  | zero => exact fun _ => rfl
  | succ d ih =>
    intro hd
    have hstep : (place l).take (d + 1) = (place l).take d ++ [(place l).getD d false] :=
      HashTree.take_succ_eq (by simpa using hd)
    have hbeside := sub_beside_singleton hn (l := l) hd
    have hlift : zoneTree.sub (leafAt {l}) ((place l).take d) =
        zoneTree.lift ((place l).getD d false)
          (zoneTree.sub (leafAt {l}) ((place l).take (d + 1))) := by
      rw [HashTree.sub_of_lt _ (show ((place l).take d).length < 64 by simp; omega)]
      refine HashTree.combine_lift
        (HashTree.sub_ne_empty hn.proper (occupied_singleton hl (List.take_prefix _ _))) ?_ ?_
      · rw [hstep]
        cases (place l).getD d false <;> rfl
      · rw [← zoneTree_empty] at hbeside
        rw [← hbeside]
        cases (place l).getD d false <;> rfl
    rw [chainUp, ← hlift, ih (by omega), List.range_succ, List.reverse_append,
      List.reverse_singleton, List.singleton_append, List.map_cons]

def loneSiblings (l : Bytes32) : List SparseMerkleProofNode :=
  (HashTree.wayUp (fun _ => emptyHash) (place l) 64).map fun s => ⟨s.1, s.2⟩

theorem loneSiblings_eq (hn : NodesNeverEmpty) (l : Bytes32) :
    (loneSiblings l).map (fun s => (s.hash, s.isRight)) =
      HashTree.wayUp (zoneTree.sub (leafAt {l})) (place l) 64 := by
  rw [loneSiblings, List.map_map]
  refine (List.map_id _).trans (List.map_congr_left fun d hd => ?_)
  rw [sub_beside_singleton hn (List.mem_range.mp (List.mem_reverse.mp hd))]

theorem walk_lone (hn : NodesNeverEmpty) (hl : l ≠ emptyHash) :
    walk l (loneSiblings l) = referenceRoot {l} := by
  have hclimb := HashTree.climb_wayUp hn.proper (length_place l) (d := 64) le_rfl
    (occupied_singleton hl (List.take_prefix _ _))
  rw [take_place_self, HashTree.sub_of_depth _ (length_place l), leafAt_singleton] at hclimb
  rw [walk_eq_climb, loneSiblings_eq hn, hclimb]
  rfl

/-- The children of the position at depth `j` on the way of the leaf. -/
noncomputable def childrenAt (l : Bytes32) (j : ℕ) : Bytes32 × Bytes32 :=
  (zoneTree.sub (leafAt {l}) ((place l).take j ++ [false]),
    zoneTree.sub (leafAt {l}) ((place l).take j ++ [true]))

/-- The bytes that are hashed for the tree, from the bottom up. -/
noncomputable def loneInputs (l : Bytes32) : List (List UInt8) :=
  ((List.range 64).reverse.map (childrenAt l)).map nodeInput

theorem walkInputs_lone (hn : NodesNeverEmpty) {preimage : List UInt8}
    (hpreimage : sha3_256 preimage = l) (hl : l ≠ emptyHash) :
    walkInputs preimage (loneSiblings l) = {i | i ∈ preimage :: loneInputs l} := by
  have hpairs := HashTree.climbPairs_wayUp hn.proper (length_place l) (d := 64) le_rfl
    (occupied_singleton hl (List.take_prefix _ _))
  rw [take_place_self, HashTree.sub_of_depth _ (length_place l), leafAt_singleton,
    ← loneSiblings_eq hn] at hpairs
  rw [walkInputs, hpreimage, loneInputs]
  exact congrArg (fun pairs => {i | i ∈ preimage :: List.map nodeInput pairs}) hpairs

theorem treeInputs_lone (hn : NodesNeverEmpty) {i : List UInt8} (hi : i ∈ treeInputs {l}) :
    i ∈ loneInputs l := by
  obtain ⟨π, hπ, hne, rfl⟩ := hi
  -- a child that is not empty has the leaf below it
  have hchild : ∀ b, zoneTree.sub (leafAt {l}) (π ++ [b]) ≠ emptyHash → π <+: place l := by
    intro b hb
    rw [← zoneTree_empty, Ne, HashTree.sub_eq_empty_iff hn.proper (by simp; omega), not_not] at hb
    obtain ⟨y, hy, hpre⟩ := hb
    rw [resident_singleton hy] at hpre
    exact (List.prefix_append _ _).trans hpre
  have hpre : π <+: place l := (not_and_or.mp hne).elim (hchild false) (hchild true)
  rw [List.prefix_iff_eq_take.mp hpre]
  exact List.mem_map_of_mem (List.mem_map_of_mem
    (List.mem_reverse.mpr (List.mem_range.mpr hπ)))

/-- The hashes of the nodes are those above the leaf. -/
theorem map_loneInputs (hn : NodesNeverEmpty) (hl : l ≠ emptyHash) :
    (loneInputs l).map sha3_256 = chainUp (place l) 64 l := by
  have hchain := chainUp_eq hn hl (d := 64) le_rfl
  rw [take_place_self, HashTree.sub_of_depth _ (length_place l), leafAt_singleton] at hchain
  rw [hchain, loneInputs, List.map_map, List.map_map]
  refine List.map_congr_left fun j hj => ?_
  have hj : j < 64 := List.mem_range.mp (List.mem_reverse.mp hj)
  have hoccupied := occupied_singleton hl (List.take_prefix j (place l))
  have hne := HashTree.sub_ne_empty hn.proper hoccupied
  rw [HashTree.sub_of_lt _ (show ((place l).take j).length < 64 by simp; omega)] at hne ⊢
  unfold HashTree.combine at hne ⊢
  split at hne
  · exact absurd rfl hne
  · next hnot =>
    rw [if_neg hnot]
    rfl

/-- If the hashes of the tree are pairwise different, so are the bytes hashed. -/
theorem injOn_lone (hn : NodesNeverEmpty) (hempty : sha3_256 [] = emptyHash)
    {preimage : List UInt8} (hpreimage : sha3_256 preimage = l) (hl : l ≠ emptyHash)
    (hdistinct : (emptyHash :: l :: chainUp (place l) 64 l).Nodup) :
    Set.InjOn sha3_256 (recordInputs {l} (fun _ => preimage) ∪ treeInputs {l} ∪
      walkInputs preimage (loneSiblings l)) := by
  have hmap : (([] :: preimage :: loneInputs l).map sha3_256).Nodup := by
    rw [List.map_cons, List.map_cons, hempty, hpreimage, map_loneInputs hn hl]
    exact hdistinct
  have hinj : Set.InjOn sha3_256 {i | i ∈ [] :: preimage :: loneInputs l} := fun i hi j hj h =>
    List.inj_on_of_nodup_map hmap hi hj h
  refine hinj.mono ?_
  rw [walkInputs_lone hn hpreimage hl]
  rintro i ((hi | hi) | hi)
  · rcases hi with rfl | ⟨m, -, rfl⟩
    · exact List.mem_cons_self
    · exact List.mem_cons_of_mem _ List.mem_cons_self
  · exact List.mem_cons_of_mem _ (List.mem_cons_of_mem _ (treeInputs_lone hn hi))
  · exact List.mem_cons_of_mem _ hi

end

end

section

attribute [local instance] Smt.guardedSha3

/-- The SHA3-256 of the byte 1. -/
def recordHash : Bytes32 where
  data := [
    0x27, 0x67, 0xf1, 0x5c, 0x8a, 0xf2, 0xf2, 0xc7,
    0x22, 0x5d, 0x52, 0x73, 0xfd, 0xd6, 0x83, 0xed,
    0xc7, 0x14, 0x11, 0x0a, 0x98, 0x7d, 0x10, 0x54,
    0x69, 0x7c, 0x34, 0x8a, 0xed, 0x4e, 0x6c, 0xc7]
  size_eq := rfl

theorem sha3_one : sha3_256 [1] = recordHash := by decide +kernel

set_option maxRecDepth 2000 in
/-- The hashes of the tree with this leaf are pairwise different. -/
theorem chain_distinct :
    ((emptyHash :: recordHash :: chainUp (place recordHash) 64 recordHash).map
      fun h => Keccak.ofBytes h.data).Nodup := by
  decide +kernel

/-- A tree with one leaf, and the proof of it. -/
theorem inclusion_sound_one :
    verifyProof ⟨sha3_256 [1],
      ((SparseMerkleTree.new .empty ⟨[]⟩).run [.insert recordHash]).root,
      loneSiblings recordHash, ⟨[]⟩⟩ = true ∧
    sha3_256 [1] ∈ (Contents.after [.insert recordHash]).present := by
  let _ : Unicode := ⟨id, id⟩
  have hleaves : leavesOf [.insert recordHash] = {recordHash} := by
    ext l
    simp [leavesOf]
  have hpresent : (Contents.after [.insert recordHash]).present = {recordHash} :=
    insert_empty_eq recordHash
  have hne : recordHash ≠ emptyHash := by decide +kernel
  have hempty : sha3_256 [] = emptyHash := by decide +kernel
  have hapart : Apart (leavesOf [.insert recordHash]) := by
    rw [hleaves]
    exact Set.injOn_singleton _ _
  have hinj := injOn_lone nodesNeverEmpty_guarded hempty sha3_one hne
    chain_distinct.of_map
  have hroot := (follows_run ⟨[]⟩ [.insert recordHash]
    (by rw [hleaves]; exact Ne.symm hne) hapart).shows_present.root_eq
  have hok : verifyProof ⟨sha3_256 [1],
      ((SparseMerkleTree.new .empty ⟨[]⟩).run [.insert recordHash]).root,
      loneSiblings recordHash, ⟨[]⟩⟩ = true := by
    have hwalk := walk_lone nodesNeverEmpty_guarded hne
    rw [← hpresent, ← hroot] at hwalk
    rw [verifyProof, decide_eq_true_iff]
    dsimp only
    rw [sha3_one, hwalk]
  refine ⟨hok, (inclusion_sound ⟨[]⟩ [.insert recordHash] (fun _ => [1]) ?_ hapart hempty
    ⟨by decide, by decide⟩ (loneSiblings recordHash) ?_).1 hok⟩
  · rw [hleaves]
    intro l hl
    rw [Set.mem_singleton_iff.mp hl]
    exact ⟨⟨by decide, by decide⟩, sha3_one⟩
  · rw [hleaves, hpresent]
    exact hinj

end

end ElaraMesh.ZoneTree
