import ElaraMesh.ZoneTree.Path
import ElaraMesh.Lib.TrieRepair
import ElaraMesh.Lib.Layer
import ElaraMesh.Lib.Table
import ElaraMesh.Record.Record
import ElaraMesh.Smt.Hash

/-!
# The record tree of a zone

Each zone keeps the hashes of its records in a sparse tree of depth 64.  The nodes are rows of
the store, read through the writes and removals that are not committed yet; a change of a leaf
hashes the nodes above it anew and stops where a hash is as it was.

The rows of a zone are kept as three maps: the keys of nodes, leaves and the count have
different lengths, and those of a node are its depth and its masked path.

## Main results

* `SparseMerkleTree.getNode_eq` — reading a node is reading its position.
* `SparseMerkleTree.node_recomputePath` — the loop is the repair of a stored tree.
-/

namespace ElaraMesh.ZoneTree

open Record (ZoneId)
open Smt (Bytes32 Sha3 sha3_256 emptyHash)

def maxDepth : ℕ := 64

structure SparseMerkleProofNode where
  hash : Bytes32
  isRight : Bool
  deriving DecidableEq

structure SparseMerkleProof where
  leaf : Bytes32
  root : Bytes32
  siblings : List SparseMerkleProofNode
  zone : ZoneId
  deriving DecidableEq

structure MerkleRows where
  nodes : Table (ℕ × UInt64) Bytes32
  leaves : Table Bytes32 Unit
  count : Option ℕ

def MerkleRows.empty : MerkleRows := ⟨∅, ∅, none⟩

/-- The tree of a zone: its rows, and what is to be written. -/
structure SparseMerkleTree where
  storage : MerkleRows
  zone : ZoneId
  /-- The write cache and the nodes to delete. -/
  nodes : Layer (ℕ × UInt64) Bytes32
  pendingLeaves : Layer Bytes32 Unit
  pendingCount : Option ℕ

section

variable [Sha3]

/-- The hash of two nodes. -/
def nodeHash (left right : Bytes32) : Bytes32 := sha3_256 (left.data ++ right.data)

def walk (leaf : Bytes32) (siblings : List SparseMerkleProofNode) : Bytes32 :=
  siblings.foldl (fun current node =>
    if node.isRight then nodeHash current node.hash else nodeHash node.hash current) leaf

def verifyProof (proof : SparseMerkleProof) : Bool := walk proof.leaf proof.siblings = proof.root

/-- The hash of a node from its children: two empty ones make an empty one. -/
def parentHash (left right : Bytes32) : Bytes32 :=
  if left = emptyHash ∧ right = emptyHash then emptyHash else nodeHash left right

end

namespace SparseMerkleTree

def new (storage : MerkleRows) (zone : ZoneId) : SparseMerkleTree :=
  ⟨storage, zone, Layer.empty, Layer.empty, none⟩

/-! ### Nodes -/

variable (t : SparseMerkleTree)

def getNode (depth : ℕ) (pathPrefix : UInt64) : Bytes32 :=
  let masked := pathMask pathPrefix depth
  (t.nodes.read (t.storage.nodes.lookup (depth, masked)) (depth, masked)).getD emptyHash

def setNode (depth : ℕ) (pathPrefix : UInt64) (hash : Bytes32) :
    SparseMerkleTree :=
  { t with nodes := t.nodes.put (depth, pathMask pathPrefix depth) hash }

def deleteNode (depth : ℕ) (pathPrefix : UInt64) : SparseMerkleTree :=
  { t with nodes := t.nodes.del (depth, pathMask pathPrefix depth) }

/-- Keep a hash; that of an empty subtree is not kept. -/
def storeNode (depth : ℕ) (pathPrefix : UInt64) (hash : Bytes32) :
    SparseMerkleTree :=
  if hash = emptyHash then t.deleteNode depth pathPrefix else t.setNode depth pathPrefix hash

def root : Bytes32 := t.getNode 0 0

/-! ### Leaves -/

def containsInternal (leafHash : Bytes32) : Bool :=
  (t.pendingLeaves.read (t.storage.leaves.lookup leafHash) leafHash).isSome

def leafCount : ℕ := (t.pendingCount.or t.storage.count).getD 0

/-- Note a leaf that is inserted: it is counted if it was not there. -/
def trackInsert (leafHash : Bytes32) : SparseMerkleTree :=
  if t.containsInternal leafHash then { t with pendingLeaves := t.pendingLeaves.put leafHash () }
  else
    { t with
      pendingLeaves := t.pendingLeaves.put leafHash (), pendingCount := some (t.leafCount + 1) }

def trackRemove (leafHash : Bytes32) : SparseMerkleTree :=
  if t.leafCount > 0 then
    { t with
      pendingLeaves := t.pendingLeaves.del leafHash, pendingCount := some (t.leafCount - 1) }
  else { t with pendingLeaves := t.pendingLeaves.del leafHash }

section

variable [Sha3]

/-- Hash anew from the given depth up; stop where the hash of the parent is as it was. -/
def recomputePath (path : UInt64) : ℕ → SparseMerkleTree → SparseMerkleTree
  | 0, t => t
  | parentDepth + 1, t =>
    let parentPath := pathMask path parentDepth
    let hash := parentHash (t.getNode (parentDepth + 1) parentPath)
      (t.getNode (parentDepth + 1) (rightPath parentPath parentDepth))
    if hash = t.getNode parentDepth parentPath then t
    else recomputePath path parentDepth (t.storeNode parentDepth parentPath hash)

def insert (t : SparseMerkleTree) (leafHash : Bytes32) : SparseMerkleTree :=
  let path := leafToPath leafHash
  recomputePath path maxDepth ((t.setNode maxDepth path leafHash).trackInsert leafHash)

/-- Also returns whether the leaf was there. -/
def remove (t : SparseMerkleTree) (leafHash : Bytes32) : SparseMerkleTree × Bool :=
  let path := leafToPath leafHash
  let current := t.getNode maxDepth path
  if current = emptyHash ∨ current ≠ leafHash then (t, false)
  else (recomputePath path maxDepth ((t.deleteNode maxDepth path).trackRemove leafHash), true)

end

def commit : SparseMerkleTree :=
  new ⟨t.nodes.flush t.storage.nodes, t.pendingLeaves.flush t.storage.leaves,
    t.pendingCount.or t.storage.count⟩ t.zone

/-- Open the tree of the zone again: what was pending is lost. -/
def reopen : SparseMerkleTree := new t.storage t.zone

/-! ### Proofs -/

/-- The node beside the path below a depth. -/
def sibling (path : UInt64) (depth : ℕ) : SparseMerkleProofNode :=
  let parentPath := pathMask path depth
  let isRightChild := pathBit path depth
  { hash :=
      if isRightChild then t.getNode (depth + 1) parentPath
      else t.getNode (depth + 1) (rightPath parentPath depth)
    isRight := !isRightChild }

def proof (leafHash : Bytes32) : Option SparseMerkleProof :=
  let path := leafToPath leafHash
  let stored := t.getNode maxDepth path
  if stored = emptyHash ∨ stored ≠ leafHash then none
  else some
    { leaf := leafHash
      root := t.root
      siblings := (List.range maxDepth).reverse.map (t.sibling path)
      zone := t.zone }

/-! ### The store as a tree of hashes -/

/-- The hash that is kept for a position. -/
def node (π : List Bool) : Bytes32 :=
  (t.nodes.read (t.storage.nodes.lookup (row π)) (row π)).getD emptyHash

variable {d : ℕ}

/-- Reading a node is reading its position. -/
theorem getNode_eq (p : UInt64) (hd : d ≤ 64) :
    t.getNode d p = t.node ((bits p).take d) := by
  rw [node, row_take p hd]
  rfl

theorem root_eq : t.root = t.node [] :=
  t.getNode_eq 0 (Nat.zero_le 64)

theorem row_eq_iff (p : UInt64) (hd : d ≤ 64) (π : List Bool) :
    row π = (d, pathMask p d) ↔ π = (bits p).take d := by
  have hlen : ((bits p).take d).length = d := by simp; omega
  rw [← row_take p hd]
  refine ⟨fun h => ?_, fun h => by rw [h]⟩
  have hπ : π.length = d := (congrArg Prod.fst h).trans hlen
  exact row_injective (by omega) (by omega) h

theorem node_setNode (p : UInt64) (hd : d ≤ 64) (h : Bytes32) :
    (t.setNode d p h).node = Function.update t.node ((bits p).take d) h := by
  funext π
  rw [node, setNode, Layer.read_put, Function.update_apply]
  simp only [row_eq_iff p hd]
  split
  · rfl
  · rfl

theorem node_deleteNode (p : UInt64) (hd : d ≤ 64) :
    (t.deleteNode d p).node = Function.update t.node ((bits p).take d) emptyHash := by
  funext π
  rw [node, deleteNode, Layer.read_del, Function.update_apply]
  simp only [row_eq_iff p hd]
  split
  · rfl
  · rfl

theorem node_storeNode (p : UInt64) (hd : d ≤ 64) (h : Bytes32) :
    (t.storeNode d p h).node = Function.update t.node ((bits p).take d) h := by
  unfold storeNode
  split
  · next he => rw [node_deleteNode t p hd, he]
  · exact node_setNode t p hd h

theorem node_left (p : UInt64) (hd : d < 64) :
    t.getNode (d + 1) (pathMask p d) = t.node ((bits p).take d ++ [false]) := by
  rw [t.getNode_eq _ hd, take_left p hd]

theorem node_right (p : UInt64) (hd : d < 64) :
    t.getNode (d + 1) (rightPath (pathMask p d) d) = t.node ((bits p).take d ++ [true]) := by
  rw [t.getNode_eq _ hd, take_right p hd]

theorem node_commit : t.commit.node = t.node := by
  funext π
  unfold node commit new
  dsimp only
  rw [Layer.read_empty, Layer.lookup_flush]

theorem containsInternal_commit :
    t.commit.containsInternal = t.containsInternal := by
  funext l
  unfold containsInternal commit new
  dsimp only
  rw [Layer.read_empty, Layer.lookup_flush]

/-- The nodes beside the path of a leaf are those beside its way. -/
theorem siblings_eq_wayUp (p : UInt64) :
    ((List.range maxDepth).reverse.map (t.sibling p)).map (fun s => (s.hash, s.isRight)) =
      HashTree.wayUp t.node (bits p) maxDepth := by
  rw [HashTree.wayUp, List.map_map]
  apply List.map_congr_left
  intro d hd
  have hd : d < 64 := List.mem_range.mp (List.mem_reverse.mp hd)
  rw [Function.comp_apply, sibling, getD_bits p hd]
  dsimp only
  cases pathBit p d with
  | false => rw [if_neg (by decide), t.node_right p hd]; rfl
  | true => rw [if_pos rfl, t.node_left p hd]; rfl

/-! ### Tracking leaves -/

theorem node_trackInsert (l : Bytes32) : (t.trackInsert l).node = t.node := by
  unfold trackInsert
  split <;> rfl

theorem node_trackRemove (l : Bytes32) : (t.trackRemove l).node = t.node := by
  unfold trackRemove
  split <;> rfl

theorem containsInternal_trackInsert (l m : Bytes32) :
    (t.trackInsert l).containsInternal m = (decide (m = l) || t.containsInternal m) := by
  have hput : (t.trackInsert l).containsInternal m =
      ((t.pendingLeaves.put l ()).read (t.storage.leaves.lookup m) m).isSome := by
    unfold trackInsert
    split <;> rfl
  rw [hput, Layer.read_put, containsInternal]
  by_cases hm : m = l <;> simp [hm]

theorem containsInternal_trackRemove (l m : Bytes32) :
    (t.trackRemove l).containsInternal m = (!decide (m = l) && t.containsInternal m) := by
  have hdel : (t.trackRemove l).containsInternal m =
      ((t.pendingLeaves.del l).read (t.storage.leaves.lookup m) m).isSome := by
    unfold trackRemove
    split <;> rfl
  rw [hdel, Layer.read_del, containsInternal]
  by_cases hm : m = l <;> simp [hm]

theorem leafCount_trackInsert (l : Bytes32) :
    (t.trackInsert l).leafCount = if t.containsInternal l then t.leafCount else t.leafCount + 1 := by
  unfold trackInsert
  split <;> rfl

theorem leafCount_trackRemove (l : Bytes32) :
    (t.trackRemove l).leafCount = t.leafCount - 1 := by
  unfold trackRemove
  split
  · rfl
  · next h =>
    have hzero : t.leafCount = 0 := Nat.eq_zero_of_not_pos h
    rw [hzero]
    exact hzero

end SparseMerkleTree

section

variable [Sha3]

def zoneTree : HashTree Bytes32 := ⟨maxDepth, emptyHash, nodeHash⟩

@[simp] theorem zoneTree_depth : zoneTree.depth = 64 := rfl

@[simp] theorem zoneTree_empty : zoneTree.empty = emptyHash := rfl

theorem parentHash_eq (left right : Bytes32) : parentHash left right = zoneTree.combine left right :=
  rfl

theorem walk_eq_climb (leaf : Bytes32) (siblings : List SparseMerkleProofNode) :
    walk leaf siblings =
      Merkle.climb zoneTree.node leaf (siblings.map fun s => (s.hash, s.isRight)) := by
  rw [walk, Merkle.climb, List.foldl_map]
  rfl

namespace SparseMerkleTree

/-- The loop is the repair of the stored tree above a leaf. -/
theorem node_recomputePath (p : UInt64) : ∀ {d : ℕ} (t : SparseMerkleTree), d ≤ 64 →
    (recomputePath p d t).node = zoneTree.repair (bits p) d t.node := by
  intro d
  induction d with
  | zero =>
    intro t _
    rfl
  | succ d ih =>
    intro t hd
    have hparent : t.getNode d (pathMask p d) = t.node ((bits p).take d) := by
      rw [t.getNode_eq _ (by omega), take_pathMask]
    rw [recomputePath, HashTree.repair, t.node_left p hd, t.node_right p hd, hparent, parentHash_eq]
    split
    · rfl
    · rw [ih _ (by omega), node_storeNode _ _ (by omega), take_pathMask]

/-- The loop changes nodes only. -/
theorem recomputePath_frame (p : UInt64) : ∀ (d : ℕ) (t : SparseMerkleTree),
    ∃ nodes, recomputePath p d t = { t with nodes := nodes } := by
  intro d
  induction d with
  | zero => exact fun t => ⟨t.nodes, rfl⟩
  | succ d ih =>
    intro t
    rw [recomputePath]
    split
    · exact ⟨t.nodes, rfl⟩
    · obtain ⟨nodes, h⟩ := ih (t.storeNode d (pathMask p d) _)
      refine ⟨nodes, h.trans ?_⟩
      unfold storeNode
      split <;> rfl

theorem containsInternal_insert (t : SparseMerkleTree) (l m : Bytes32) :
    (t.insert l).containsInternal m = (decide (m = l) || t.containsInternal m) := by
  obtain ⟨nodes, hframe⟩ := recomputePath_frame (leafToPath l) maxDepth
    ((t.setNode maxDepth (leafToPath l) l).trackInsert l)
  rw [insert, hframe]
  exact containsInternal_trackInsert _ l m

end SparseMerkleTree

end

end ElaraMesh.ZoneTree
