import ElaraMesh.ZoneTree.Tree

/-!
# The record tree of a zone is canonical

Whatever is inserted and removed, in whatever order and with whatever commits in between, the
rows show the tree over the leaves that are present: every node is the hash of its children,
at every moment, so that the root depends on the set of the leaves alone.

## Main results

* `Shows.insert`, `Shows.remove`, `Shows.commit` — one operation.
* `follows_run` — a whole run.
* `Shows.proof_spec` — the proof of a leaf that is present.
* `zoneRoot_canonical` — the root after a run is that of the present leaves, and their proofs
  are accepted.
-/

namespace ElaraMesh.ZoneTree

open Record (ZoneId)
open Smt (Bytes32 Sha3 emptyHash)

def place (l : Bytes32) : List Bool := bits (leafToPath l)

@[simp] theorem length_place (l : Bytes32) : (place l).length = 64 := length_bits _

theorem take_place (l : Bytes32) : (bits (leafToPath l)).take maxDepth = place l :=
  List.take_of_length_le (length_bits _).le

/-- No two of the leaves share their first eight bytes. -/
def Apart (leaves : Set Bytes32) : Prop := Set.InjOn (fun l => l.data.take 8) leaves

theorem Apart.eq_of_place {leaves : Set Bytes32} (h : Apart leaves) {l m : Bytes32} (hl : l ∈ leaves)
    (hm : m ∈ leaves) (hplace : place l = place m) : l = m :=
  h hl hm (bits_leafToPath_inj.mp hplace)

/-! ### The tree over a set of leaves -/

open Classical in
/-- Some hash that has a property, or else the empty one. -/
noncomputable def pick (p : Bytes32 → Prop) : Bytes32 :=
  if h : ∃ l, p l then h.choose else emptyHash

/-- What stands at a place: the leaf that belongs there, if it is present. -/
noncomputable def leafAt (present : Finset Bytes32) (x : List Bool) : Bytes32 :=
  pick fun l => l ∈ present ∧ place l = x

theorem leafAt_of_mem {present : Finset Bytes32} (hapart : Apart present) {l : Bytes32}
    (hl : l ∈ present) : leafAt present (place l) = l := by
  have hex : ∃ m, m ∈ present ∧ place m = place l := ⟨l, hl, rfl⟩
  rw [leafAt, pick, dif_pos hex]
  exact hapart.eq_of_place hex.choose_spec.1 hl hex.choose_spec.2

theorem leafAt_of_forall_ne {present : Finset Bytes32} {x : List Bool}
    (h : ∀ l ∈ present, place l ≠ x) : leafAt present x = emptyHash := by
  rw [leafAt, pick, dif_neg]
  rintro ⟨l, hl, hx⟩
  exact h l hl hx

/-- What stands at a place is the empty hash or a leaf that is present. -/
theorem leafAt_eq_or_mem (present : Finset Bytes32) (x : List Bool) :
    leafAt present x = emptyHash ∨ leafAt present x ∈ present := by
  unfold leafAt pick
  split
  · next hex => exact Or.inr hex.choose_spec.1
  · exact Or.inl rfl

/-- A place holds what it held if nothing that belongs there comes or goes. -/
theorem leafAt_congr {P Q : Finset Bytes32} {x : List Bool}
    (h : ∀ l, place l = x → (l ∈ P ↔ l ∈ Q)) : leafAt P x = leafAt Q x :=
  congrArg pick (funext fun l => propext (and_congr_left (h l)))

section

variable [Sha3]

/-- The root of the tree over a set of leaves. -/
noncomputable def referenceRoot (present : Finset Bytes32) : Bytes32 :=
  zoneTree.hash (leafAt present) maxDepth []

/-- What is read of the tree are the leaves that are present and the hashes over them. -/
structure Shows (t : SparseMerkleTree) (present : Finset Bytes32) : Prop where
  node : ∀ π, π.length ≤ 64 → t.node π = zoneTree.sub (leafAt present) π
  contains : ∀ l, t.containsInternal l = true ↔ l ∈ present
  count : t.leafCount = present.card

namespace Shows

variable {t : SparseMerkleTree} {present : Finset Bytes32} {l : Bytes32}

theorem root_eq (h : Shows t present) : t.root = referenceRoot present := by
  rw [t.root_eq, h.node [] (Nat.zero_le 64)]
  rfl

theorem leaf_eq (h : Shows t present) (l : Bytes32) :
    t.getNode maxDepth (leafToPath l) = leafAt present (place l) := by
  rw [t.getNode_eq _ (d := maxDepth) le_rfl, take_place, h.node _ (length_place l).le]
  exact HashTree.sub_of_depth _ (length_place l)

/-- Hash anew above a leaf that was changed. -/
theorem recompute {present' : Finset Bytes32} (h : Shows t present)
    (hother : ∀ m, place m ≠ place l → (m ∈ present ↔ m ∈ present'))
    {t' : SparseMerkleTree}
    (ht' : t'.node = Function.update t.node (place l) (leafAt present' (place l))) {π : List Bool}
    (hπ : π.length ≤ 64) :
    (SparseMerkleTree.recomputePath (leafToPath l) maxDepth t').node π =
      zoneTree.sub (leafAt present') π := by
  rw [SparseMerkleTree.node_recomputePath _ (d := maxDepth) _ le_rfl]
  refine HashTree.repair_eq (f := leafAt present) (length_place l) (fun x hx => ?_) (fun ρ hρ => ?_)
    hπ
  · -- at another place the leaves are the same
    refine leafAt_congr fun m hm => hother m ?_
    rw [hm]
    exact hx
  · rw [ht', Function.update_apply, h.node ρ hρ]
    rfl

/-- The nodes after an insert show the leaves with the new one in its place. -/
theorem node_insert {present' : Finset Bytes32} (h : Shows t present)
    (hother : ∀ m, place m ≠ place l → (m ∈ present ↔ m ∈ present'))
    (hl : leafAt present' (place l) = l) {π : List Bool} (hπ : π.length ≤ 64) :
    (t.insert l).node π = zoneTree.sub (leafAt present') π := by
  refine h.recompute hother ?_ hπ
  rw [SparseMerkleTree.node_trackInsert, SparseMerkleTree.node_setNode _ _ (d := maxDepth) le_rfl,
    take_place, hl]

theorem insert (h : Shows t present) (hapart : Apart (Insert.insert l present : Finset Bytes32)) :
    Shows (t.insert l) (Insert.insert l present) := by
  obtain ⟨nodes, hframe⟩ := SparseMerkleTree.recomputePath_frame (leafToPath l) maxDepth
    ((t.setNode maxDepth (leafToPath l) l).trackInsert l)
  have hset : (t.setNode maxDepth (leafToPath l) l).containsInternal = t.containsInternal := rfl
  constructor
  · intro π hπ
    refine h.node_insert (fun m hm => ?_) (leafAt_of_mem hapart (Finset.mem_insert_self l present)) hπ
    rw [Finset.mem_insert, or_iff_right (mt (congrArg place) hm)]
  · intro m
    rw [t.containsInternal_insert, Bool.or_eq_true, decide_eq_true_iff, h.contains m,
      Finset.mem_insert]
  · rw [SparseMerkleTree.insert, hframe]
    refine (SparseMerkleTree.leafCount_trackInsert _ l).trans ?_
    rw [hset, Finset.card_insert_eq_ite, ← h.count]
    by_cases hl : l ∈ present
    · rw [if_pos ((h.contains l).mpr hl), if_pos hl]
      rfl
    · rw [if_neg (mt (h.contains l).mp hl), if_neg hl]
      rfl

/-- A leaf that is not present is not found: its place is empty or another one is there. -/
theorem absent (h : Shows t present) (hl : l ∉ present) :
    t.getNode maxDepth (leafToPath l) = emptyHash ∨ t.getNode maxDepth (leafToPath l) ≠ l := by
  rw [h.leaf_eq l]
  refine (leafAt_eq_or_mem present (place l)).imp_right fun hmem heq => hl ?_
  rwa [heq] at hmem

theorem remove_of_notMem (h : Shows t present) (hl : l ∉ present) : t.remove l = (t, false) := by
  rw [SparseMerkleTree.remove, if_pos (h.absent hl)]

theorem remove (h : Shows t present) (hapart : Apart present) (hempty : emptyHash ∉ present) :
    Shows (t.remove l).1 (present.erase l) ∧ ((t.remove l).2 = true ↔ l ∈ present) := by
  by_cases hl : l ∈ present
  · obtain ⟨nodes, hframe⟩ := SparseMerkleTree.recomputePath_frame (leafToPath l) maxDepth
      ((t.deleteNode maxDepth (leafToPath l)).trackRemove l)
    have hdel : (t.deleteNode maxDepth (leafToPath l)).containsInternal = t.containsInternal := rfl
    have hne : l ≠ emptyHash := fun heq => hempty (heq ▸ hl)
    have hremove : t.remove l = (SparseMerkleTree.recomputePath (leafToPath l) maxDepth
        ((t.deleteNode maxDepth (leafToPath l)).trackRemove l), true) := by
      rw [SparseMerkleTree.remove, h.leaf_eq l, leafAt_of_mem hapart hl,
        if_neg fun hc => hc.elim hne (absurd rfl)]
    rw [hremove]
    refine ⟨⟨fun π hπ => ?_, fun m => ?_, ?_⟩, iff_of_true rfl hl⟩
    · refine h.recompute (fun m hm => ?_) ?_ hπ
      · rw [Finset.mem_erase, and_iff_right (mt (congrArg place) hm)]
      · have hgone : leafAt (present.erase l) (place l) = emptyHash := by
          refine leafAt_of_forall_ne fun m hm hplace => ?_
          obtain ⟨hml, hm⟩ := Finset.mem_erase.mp hm
          exact hml (hapart.eq_of_place hm hl hplace)
        rw [SparseMerkleTree.node_trackRemove,
          SparseMerkleTree.node_deleteNode _ _ (d := maxDepth) le_rfl, take_place, hgone]
    · rw [hframe]
      refine Iff.trans (Bool.eq_iff_iff.mp (SparseMerkleTree.containsInternal_trackRemove _ l m)) ?_
      rw [Bool.and_eq_true, Bool.not_eq_true', decide_eq_false_iff_not, hdel, h.contains m,
        Finset.mem_erase]
    · rw [hframe]
      refine (SparseMerkleTree.leafCount_trackRemove _ l).trans ?_
      rw [Finset.card_erase_of_mem hl, ← h.count]
      rfl
  · rw [h.remove_of_notMem hl, Finset.erase_eq_of_notMem hl]
    exact ⟨h, iff_of_false Bool.false_ne_true hl⟩

theorem commit (h : Shows t present) : Shows t.commit present where
  node π hπ := by rw [t.node_commit, h.node π hπ]
  contains l := by rw [t.containsInternal_commit, h.contains l]
  count := h.count

end Shows

/-- An empty store shows the tree without leaves. -/
theorem shows_new (zone : ZoneId) : Shows (SparseMerkleTree.new .empty zone) ∅ where
  node π hπ := by
    have hleaf : ∀ x, leafAt ∅ x = zoneTree.empty := fun x =>
      leafAt_of_forall_ne fun l hl => absurd hl (Finset.notMem_empty l)
    rw [HashTree.sub, HashTree.hash_of_forall_empty hleaf]
    rfl
  contains l := iff_of_false Bool.false_ne_true (Finset.notMem_empty l)
  count := rfl

/-! ### Runs -/

/-- What is done with the tree of a zone. -/
inductive Op where
  | insert (leafHash : Bytes32)
  | remove (leafHash : Bytes32)
  | commit
  | reopen
  deriving DecidableEq

def leavesOf (ops : List Op) : Set Bytes32 := {l | .insert l ∈ ops ∨ .remove l ∈ ops}

/-- The leaves that are present, and those that were at the last commit. -/
structure Contents where
  present : Finset Bytes32
  committed : Finset Bytes32

namespace Contents

def step (c : Contents) : Op → Contents
  | .insert l => { c with present := insert l c.present }
  | .remove l => { c with present := c.present.erase l }
  | .commit => { c with committed := c.present }
  | .reopen => { c with present := c.committed }

/-- The leaves after some operations on an empty store. -/
def after (ops : List Op) : Contents := ops.foldl step ⟨∅, ∅⟩

end Contents

namespace SparseMerkleTree

def step (t : SparseMerkleTree) : Op → SparseMerkleTree
  | .insert l => t.insert l
  | .remove l => (t.remove l).1
  | .commit => t.commit
  | .reopen => t.reopen

def run (t : SparseMerkleTree) (ops : List Op) : SparseMerkleTree := ops.foldl step t

/-- What is pending changes no row. -/
theorem reopen_insert (t : SparseMerkleTree) (l : Bytes32) : (t.insert l).reopen = t.reopen := by
  obtain ⟨nodes, h⟩ := recomputePath_frame (leafToPath l) maxDepth
    ((t.setNode maxDepth (leafToPath l) l).trackInsert l)
  rw [insert, h]
  unfold trackInsert
  split <;> rfl

theorem reopen_remove (t : SparseMerkleTree) (l : Bytes32) : (t.remove l).1.reopen = t.reopen := by
  obtain ⟨nodes, h⟩ := recomputePath_frame (leafToPath l) maxDepth
    ((t.deleteNode maxDepth (leafToPath l)).trackRemove l)
  rw [remove, h]
  split
  · rfl
  · unfold trackRemove
    split <;> rfl

end SparseMerkleTree

/-- The tree shows the leaves that are present, and its rows those of the last commit. -/
structure Follows (leaves : Set Bytes32) (t : SparseMerkleTree) (c : Contents) : Prop where
  shows_present : Shows t c.present
  shows_committed : Shows t.reopen c.committed
  present_subset : ↑c.present ⊆ leaves
  committed_subset : ↑c.committed ⊆ leaves

namespace Follows

variable {leaves : Set Bytes32} {t : SparseMerkleTree} {c : Contents} {l : Bytes32}

theorem insert_subset (h : Follows leaves t c) (hl : l ∈ leaves) :
    ↑(insert l c.present : Finset Bytes32) ⊆ leaves := by
  rw [Finset.coe_insert]
  exact Set.insert_subset hl h.present_subset

theorem step (h : Follows leaves t c) (hapart : Apart leaves) (hempty : emptyHash ∉ leaves) {op : Op}
    (hop : ∀ l, op = .insert l ∨ op = .remove l → l ∈ leaves) :
    Follows leaves (t.step op) (c.step op) := by
  cases op with
  | insert l =>
    have hsubset := h.insert_subset (hop l (Or.inl rfl))
    refine ⟨h.shows_present.insert (hapart.mono hsubset), ?_, hsubset, h.committed_subset⟩
    rw [SparseMerkleTree.step, t.reopen_insert]
    exact h.shows_committed
  | remove l =>
    refine ⟨(h.shows_present.remove (hapart.mono h.present_subset)
      fun hmem => hempty (h.present_subset hmem)).1, ?_, ?_, h.committed_subset⟩
    · rw [SparseMerkleTree.step, t.reopen_remove]
      exact h.shows_committed
    · exact (Finset.coe_subset.mpr (Finset.erase_subset l c.present)).trans h.present_subset
  | commit => exact ⟨h.shows_present.commit, h.shows_present.commit, h.present_subset, h.present_subset⟩
  | reopen =>
    exact ⟨h.shows_committed, h.shows_committed, h.committed_subset, h.committed_subset⟩

end Follows

/-- After every run the tree shows the leaves that are present. -/
theorem follows_run (zone : ZoneId) (ops : List Op) (hempty : emptyHash ∉ leavesOf ops)
    (hapart : Apart (leavesOf ops)) :
    Follows (leavesOf ops) ((SparseMerkleTree.new .empty zone).run ops) (Contents.after ops) := by
  have hnew : Follows (leavesOf ops) (SparseMerkleTree.new .empty zone) ⟨∅, ∅⟩ :=
    ⟨shows_new zone, shows_new zone, by simp, by simp⟩
  have hgo : ∀ (rest : List Op) (t : SparseMerkleTree) (c : Contents), (∀ op ∈ rest, op ∈ ops) →
      Follows (leavesOf ops) t c →
      Follows (leavesOf ops) (rest.foldl SparseMerkleTree.step t) (rest.foldl Contents.step c) := by
    intro rest
    induction rest with
    | nil => exact fun _ _ _ h => h
    | cons op rest ih =>
      intro t c hrest h
      have hop := hrest op List.mem_cons_self
      refine ih _ _ (fun op' h' => hrest op' (List.mem_cons_of_mem _ h')) (h.step hapart hempty ?_)
      rintro l (rfl | rfl)
      · exact Or.inl hop
      · exact Or.inr hop
  exact hgo ops _ _ (fun _ h => h) hnew

/-! ### Proofs -/

/-- No node hashes to the value of an empty subtree. -/
def NodesNeverEmpty : Prop := ∀ left right, nodeHash left right ≠ emptyHash

theorem NodesNeverEmpty.proper (h : NodesNeverEmpty) : zoneTree.Proper := h

/-- A leaf that is present has a path of 64 nodes, which leads to the root. -/
theorem Shows.proof_spec {t : SparseMerkleTree} {present : Finset Bytes32} (h : Shows t present)
    (hn : NodesNeverEmpty) (hapart : Apart present) {l : Bytes32} (hl : l ∈ present)
    (hne : l ≠ emptyHash) : ∃ proof, t.proof l = some proof ∧ proof.leaf = l ∧
      proof.root = t.root ∧ proof.zone = t.zone ∧ proof.siblings.length = maxDepth ∧
      verifyProof proof = true := by
  have hleaf := leafAt_of_mem hapart hl
  have hproof : t.proof l = some ⟨l, t.root,
      (List.range maxDepth).reverse.map (t.sibling (leafToPath l)), t.zone⟩ := by
    rw [SparseMerkleTree.proof, h.leaf_eq l, hleaf, if_neg fun hc => hc.elim hne (absurd rfl)]
  refine ⟨_, hproof, rfl, rfl, rfl, by simp, ?_⟩
  -- the nodes beside the path are those of the tree over the leaves
  have hway : HashTree.wayUp t.node (place l) maxDepth =
      HashTree.wayUp (zoneTree.sub (leafAt present)) (place l) maxDepth := by
    apply List.map_congr_left
    intro d hd
    have hd : d < 64 := List.mem_range.mp (List.mem_reverse.mp hd)
    rw [h.node _ (by simp; omega)]
  have hplace : (place l).take maxDepth = place l := take_place l
  have hoccupied : zoneTree.Occupied (leafAt present) ((place l).take maxDepth) :=
    ⟨place l, ⟨length_place l, by rw [hleaf]; exact hne⟩, List.take_prefix _ _⟩
  have hclimb := HashTree.climb_wayUp hn.proper (length_place l) (d := maxDepth) le_rfl hoccupied
  rw [hplace, HashTree.sub_of_depth _ (length_place l), hleaf] at hclimb
  rw [verifyProof, decide_eq_true_iff, walk_eq_climb, t.siblings_eq_wayUp, t.root_eq,
    h.node [] (Nat.zero_le 64), ← hclimb, ← hway]
  rfl

/-- After every run of inserts, removes, commits and reopenings the root is that of the set of
the leaves that are present, and the proof of each of them has 64 siblings and is accepted. -/
theorem zoneRoot_canonical (hn : NodesNeverEmpty) (zone : ZoneId) (ops : List Op)
    (hempty : emptyHash ∉ leavesOf ops) (hapart : Apart (leavesOf ops)) :
    ((SparseMerkleTree.new .empty zone).run ops).root =
        referenceRoot (Contents.after ops).present ∧
      ∀ l ∈ (Contents.after ops).present,
        ∃ proof, ((SparseMerkleTree.new .empty zone).run ops).proof l = some proof ∧
          proof.leaf = l ∧ proof.root = ((SparseMerkleTree.new .empty zone).run ops).root ∧
          proof.siblings.length = 64 ∧ verifyProof proof = true := by
  have h := follows_run zone ops hempty hapart
  refine ⟨h.shows_present.root_eq, fun l hl => ?_⟩
  have hmem := h.present_subset hl
  have hne : l ≠ emptyHash := fun heq => hempty (heq ▸ hmem)
  obtain ⟨proof, hproof, hleaf, hroot, -, hlen, hok⟩ :=
    h.shows_present.proof_spec hn (hapart.mono h.present_subset) hl hne
  exact ⟨proof, hproof, hleaf, hroot, hlen, hok⟩

end

section

attribute [local instance] Smt.guardedSha3

theorem nodesNeverEmpty_guarded : NodesNeverEmpty := fun left _ =>
  Smt.guardedSha3_ne_empty fun h => by
    have hlen := congrArg List.length h
    rw [List.length_append, left.size_eq] at hlen
    simp at hlen

/-- A hash with another place than zero. -/
def ones : Bytes32 := .filled 1 1

/-- A leaf that is committed, and another one that is lost when the tree is opened again. -/
theorem zoneRoot_canonical_reopened :
    ((SparseMerkleTree.new .empty ⟨[]⟩).run
        [.insert Bytes32.zero, .commit, .insert ones, .reopen]).root =
      referenceRoot {Bytes32.zero} := by
  have hleaves : leavesOf [.insert Bytes32.zero, .commit, .insert ones, .reopen] =
      {Bytes32.zero, ones} := by
    ext l
    simp [leavesOf]
  refine (zoneRoot_canonical nodesNeverEmpty_guarded ⟨[]⟩ _ ?_ ?_).1
  · rw [hleaves]
    rintro (h | h)
    · exact absurd h (by decide +kernel)
    · exact absurd h (by decide +kernel)
  · rw [hleaves]
    rintro l (rfl | rfl) m (rfl | rfl) h
    · rfl
    · exact absurd h (by decide +kernel)
    · exact absurd h (by decide +kernel)
    · rfl

end

end ElaraMesh.ZoneTree
