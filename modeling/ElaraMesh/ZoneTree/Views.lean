import ElaraMesh.ZoneTree.Canonical
import ElaraMesh.Lib.Runs
import Mathlib.Data.List.TFAE

/-!
# The views of a zone tree

Whether a leaf is in the tree of a zone can be asked in four ways.  Two of them look at the rows of
leaves, which are kept under the full hash; two look at the node at the place of the leaf, which is
found by the first eight bytes and holds one leaf only.  A leaf is lost to the second pair where
another one with the same first bytes is inserted after it, and the value that stands for an empty
subtree is never found there.

## Main results

* `Shows.viewsAgree` — the views of a tree over leaves that have places of their own.
* `fits_of_viewsAgree_insert` — another leaf makes the views differ.
* `viewsAgree_throughout_iff` — the views agree throughout a run exactly if every leaf that is
  inserted fits.
-/

namespace ElaraMesh.ZoneTree

open Record (ZoneId)
open Smt (Bytes32 Sha3 emptyHash)

namespace SparseMerkleTree

def contains (t : SparseMerkleTree) (leafHash : Bytes32) : Bool := t.containsInternal leafHash

/-- The leaves of the rows and of what is pending, in order. -/
def allLeaves (t : SparseMerkleTree) : List Bytes32 :=
  (t.pendingLeaves.flush t.storage.leaves).keys.insertionSort fun a b => a.data ≤ b.data

theorem mem_allLeaves (t : SparseMerkleTree) (l : Bytes32) :
    l ∈ t.allLeaves ↔ t.contains l = true := by
  rw [allLeaves, List.mem_insertionSort, contains, containsInternal, ← Layer.lookup_flush,
    AList.lookup_isSome]
  rfl

theorem nodup_allLeaves (t : SparseMerkleTree) : t.allLeaves.Nodup :=
  (List.perm_insertionSort _ _).nodup_iff.mpr (AList.keys_nodup _)

end SparseMerkleTree

section

variable [Sha3]

/-- A path is returned for the leaf, and it leads to the root. -/
def Proves (t : SparseMerkleTree) (l : Bytes32) : Prop :=
  ∃ proof, t.proof l = some proof ∧ proof.root = t.root ∧ verifyProof proof = true

/-- The views show the same leaves, and their number. -/
structure ViewsAgree (t : SparseMerkleTree) : Prop where
  views : ∀ l, [t.contains l = true, l ∈ t.allLeaves, Proves t l, (t.remove l).2 = true].TFAE
  count : t.leafCount = t.allLeaves.length

/-- The leaves have places of their own, and none of them is the empty value. -/
structure Placed (leaves : Finset Bytes32) : Prop where
  apart : Apart leaves
  nonempty : emptyHash ∉ leaves

/-- A leaf that may be inserted. -/
structure Fits (present : Finset Bytes32) (l : Bytes32) : Prop where
  ne_empty : l ≠ emptyHash
  free : ∀ m ∈ present, m.data.take 8 = l.data.take 8 → m = l

variable {t : SparseMerkleTree} {present : Finset Bytes32} {l : Bytes32}

namespace Placed

omit [Sha3] in
theorem insert (h : Placed present) (hl : Fits present l) : Placed (insert l present) where
  apart := by
    unfold Apart
    rw [Finset.coe_insert]
    rintro a (rfl | ha) b (rfl | hb) hab
    · rfl
    · exact (hl.free b hb hab.symm).symm
    · exact hl.free a ha hab
    · exact h.apart ha hb hab
  nonempty := by
    rw [Finset.mem_insert, not_or]
    exact ⟨hl.ne_empty.symm, h.nonempty⟩

omit [Sha3] in
theorem erase (h : Placed present) (l : Bytes32) : Placed (present.erase l) where
  apart := h.apart.mono (Finset.coe_subset.mpr (Finset.erase_subset l present))
  nonempty := fun hmem => h.nonempty (Finset.mem_of_mem_erase hmem)

omit [Sha3] in
theorem empty : Placed ∅ := ⟨by simp [Apart], Finset.notMem_empty _⟩

end Placed

/-! ### Where the views agree -/

namespace Shows

theorem length_allLeaves (h : Shows t present) : t.allLeaves.length = present.card := by
  rw [← List.toFinset_card_of_nodup t.nodup_allLeaves]
  congr 1
  ext l
  rw [List.mem_toFinset, t.mem_allLeaves, SparseMerkleTree.contains, h.contains l]

theorem proves_iff (h : Shows t present) (hp : Placed present) (hn : NodesNeverEmpty) (l : Bytes32) :
    Proves t l ↔ l ∈ present := by
  constructor
  · rintro ⟨proof, hproof, -⟩
    by_contra hl
    rw [SparseMerkleTree.proof, if_pos (h.absent hl)] at hproof
    cases hproof
  · intro hl
    obtain ⟨proof, hproof, -, hroot, -, -, hok⟩ :=
      h.proof_spec hn hp.apart hl fun heq => hp.nonempty (heq ▸ hl)
    exact ⟨proof, hproof, hroot, hok⟩

theorem viewsAgree (h : Shows t present) (hp : Placed present) (hn : NodesNeverEmpty) :
    ViewsAgree t where
  views l := by
    have hcontains : t.contains l = true ↔ l ∈ present := h.contains l
    have hremove := (h.remove (l := l) hp.apart hp.nonempty).2
    tfae_have 1 ↔ 2 := (t.mem_allLeaves l).symm
    tfae_have 1 ↔ 3 := hcontains.trans (h.proves_iff hp hn l).symm
    tfae_have 1 ↔ 4 := hcontains.trans hremove.symm
    tfae_finish
  count := h.count.trans h.length_allLeaves.symm

end Shows

/-! ### Where they do not -/

/-- The empty value is never found. -/
theorem remove_emptyHash (t : SparseMerkleTree) : (t.remove emptyHash).2 = false := by
  rw [SparseMerkleTree.remove, if_pos (em _)]

/-- The new leaf stands at its place, whatever was there. -/
theorem Shows.getNode_insert (h : Shows t present) (l : Bytes32) :
    (t.insert l).getNode maxDepth (leafToPath l) = l := by
  -- the nodes are those over the leaves of the other places and the new one
  let kept := Insert.insert l (present.filter fun m => place m ≠ place l)
  have hkept : leafAt kept (place l) = l := by
    have hex : ∃ m, m ∈ kept ∧ place m = place l := ⟨l, Finset.mem_insert_self _ _, rfl⟩
    rw [leafAt, pick, dif_pos hex]
    obtain ⟨hmem, hplace⟩ := hex.choose_spec
    rcases Finset.mem_insert.mp hmem with heq | hmem
    · exact heq
    · exact absurd hplace (Finset.mem_filter.mp hmem).2
  have hother : ∀ m, place m ≠ place l → (m ∈ present ↔ m ∈ kept) := by
    intro m hm
    rw [Finset.mem_insert, Finset.mem_filter, or_iff_right (mt (congrArg place) hm),
      and_iff_left hm]
  rw [SparseMerkleTree.getNode_eq _ _ (d := maxDepth) le_rfl, take_place,
    h.node_insert hother hkept (length_place l).le]
  exact (HashTree.sub_of_depth _ (length_place l)).trans hkept

/-- A leaf whose place is taken by another one is not found, and has no path. -/
theorem Shows.covered (h : Shows t present) {m : Bytes32} (hplace : place m = place l) (hne : m ≠ l) :
    ((t.insert l).remove m).2 = false ∧ (t.insert l).proof m = none := by
  have hpath : leafToPath m = leafToPath l := bits_injective hplace
  have hother : (t.insert l).getNode maxDepth (leafToPath m) ≠ m := by
    rw [hpath, h.getNode_insert l]
    exact hne.symm
  rw [SparseMerkleTree.remove, SparseMerkleTree.proof, if_pos (Or.inr hother),
    if_pos (Or.inr hother)]
  exact ⟨rfl, rfl⟩

/-- A leaf that does not fit makes the views differ. -/
theorem fits_of_viewsAgree_insert (h : Shows t present) (hv : ViewsAgree (t.insert l)) :
    Fits present l := by
  have hfound : ∀ m, (m = l ∨ m ∈ present) → ((t.insert l).remove m).2 = true := by
    intro m hm
    refine ((hv.views m).out 0 3).mp ?_
    rw [SparseMerkleTree.contains, t.containsInternal_insert, Bool.or_eq_true, decide_eq_true_iff,
      h.contains m]
    exact hm
  constructor
  · rintro rfl
    exact absurd (hfound _ (Or.inl rfl)) (by rw [remove_emptyHash]; exact Bool.false_ne_true)
  · intro m hm hbytes
    by_contra hne
    have hlost := (h.covered (bits_leafToPath_inj.mpr hbytes) hne).1
    exact Bool.false_ne_true (hlost.symm.trans (hfound m (Or.inr hm)))

/-! ### Runs -/

/-- The tree shows what is present and its rows what is committed, all in places of their own. -/
structure Tracks (t : SparseMerkleTree) (c : Contents) : Prop where
  shows_present : Shows t c.present
  shows_committed : Shows t.reopen c.committed
  present_placed : Placed c.present
  committed_placed : Placed c.committed

/-- The leaf an operation inserts fits. -/
def Contents.Admits (c : Contents) (op : Op) : Prop := ∀ l, op = .insert l → Fits c.present l

namespace Tracks

variable {c : Contents}

theorem step (h : Tracks t c) {op : Op} (hop : c.Admits op) : Tracks (t.step op) (c.step op) := by
  cases op with
  | insert l =>
    have hplaced := h.present_placed.insert (hop l rfl)
    refine ⟨h.shows_present.insert hplaced.apart, ?_, hplaced, h.committed_placed⟩
    rw [SparseMerkleTree.step, t.reopen_insert]
    exact h.shows_committed
  | remove l =>
    refine ⟨(h.shows_present.remove h.present_placed.apart h.present_placed.nonempty).1, ?_,
      h.present_placed.erase l, h.committed_placed⟩
    rw [SparseMerkleTree.step, t.reopen_remove]
    exact h.shows_committed
  | commit => exact ⟨h.shows_present.commit, h.shows_present.commit, h.present_placed, h.present_placed⟩
  | reopen =>
    exact ⟨h.shows_committed, h.shows_committed, h.committed_placed, h.committed_placed⟩

theorem admits_of_viewsAgree (h : Tracks t c) {op : Op} (hv : ViewsAgree (t.step op)) :
    c.Admits op := by
  rintro l rfl
  exact fits_of_viewsAgree_insert h.shows_present hv

end Tracks

def stepBoth (s : SparseMerkleTree × Contents) (op : Op) : SparseMerkleTree × Contents :=
  (s.1.step op, s.2.step op)

theorem foldl_stepBoth (s : SparseMerkleTree × Contents) (ops : List Op) :
    ops.foldl stepBoth s = (s.1.run ops, ops.foldl Contents.step s.2) := by
  induction ops generalizing s with
  | nil => rfl
  | cons op ops ih => exact ih (stepBoth s op)

/-- **The views of a zone tree agree throughout a run** of inserts, removes, commits and reopenings
exactly if no leaf is inserted that is the empty value or has its first eight bytes in common with
another leaf that is present. -/
theorem viewsAgree_throughout_iff (hn : NodesNeverEmpty) (zone : ZoneId) (ops : List Op) :
    (∀ before, before <+: ops → ViewsAgree ((SparseMerkleTree.new .empty zone).run before)) ↔
      ∀ before op, before ++ [op] <+: ops → (Contents.after before).Admits op := by
  let start : SparseMerkleTree × Contents := (SparseMerkleTree.new .empty zone, ⟨∅, ∅⟩)
  have hstart : Tracks start.1 start.2 := ⟨shows_new zone, shows_new zone, .empty, .empty⟩
  have hruns : (∀ before, before <+: ops → ViewsAgree (before.foldl stepBoth start).1) ↔
      ∀ before op, before ++ [op] <+: ops → (before.foldl stepBoth start).2.Admits op :=
    Runs.forall_prefix_iff_of (I := fun s : SparseMerkleTree × Contents => Tracks s.1 s.2)
      (C := fun s op => s.2.Admits op) (P := fun s => ViewsAgree s.1) (fun _ _ h hop => h.step hop)
      (fun _ h => h.shows_present.viewsAgree h.present_placed hn)
      (fun _ _ h hv => h.admits_of_viewsAgree hv) hstart ops
  simp only [foldl_stepBoth] at hruns
  exact hruns

/-- Of two leaves with the same first bytes the one that was inserted first is listed, but it has no
path and is not removed. -/
theorem views_of_covered (zone : ZoneId) {m : Bytes32} (hm : Fits ∅ m)
    (hbytes : m.data.take 8 = l.data.take 8) (hne : m ≠ l) :
    ((SparseMerkleTree.new .empty zone).run [.insert m, .insert l]).contains m = true ∧
      ((SparseMerkleTree.new .empty zone).run [.insert m, .insert l]).proof m = none ∧
      (((SparseMerkleTree.new .empty zone).run [.insert m, .insert l]).remove m).2 = false ∧
      ¬ ViewsAgree ((SparseMerkleTree.new .empty zone).run [.insert m, .insert l]) := by
  have hfirst : Shows ((SparseMerkleTree.new .empty zone).insert m) {m} :=
    (shows_new zone).insert (Placed.empty.insert hm).apart
  obtain ⟨hremove, hproof⟩ := hfirst.covered (bits_leafToPath_inj.mpr hbytes) hne
  simp only [SparseMerkleTree.run, List.foldl_cons, List.foldl_nil, SparseMerkleTree.step]
  refine ⟨?_, hproof, hremove, fun hv => hne ?_⟩
  · refine (SparseMerkleTree.containsInternal_insert _ l m).trans ?_
    rw [(hfirst.contains m).mpr (Finset.mem_singleton_self m), Bool.or_true]
  · exact (fits_of_viewsAgree_insert hfirst hv).free m (Finset.mem_singleton_self m) hbytes

end

section

attribute [local instance] Smt.guardedSha3

/-- A hash with the first bytes of zero. -/
def nearZero : Bytes32 := Bytes32.zero.modify 31 (· + 1)

theorem fits_zero : Fits ∅ Bytes32.zero :=
  ⟨by decide, fun m hm => absurd hm (Finset.notMem_empty m)⟩

theorem fits_ones : Fits {Bytes32.zero} ones := by
  refine ⟨by decide, fun m hm hbytes => ?_⟩
  rw [Finset.mem_singleton.mp hm] at hbytes
  exact absurd hbytes (by decide)

/-- Two leaves that part in the first byte. -/
theorem viewsAgree_throughout_iff_apart :
    ViewsAgree ((SparseMerkleTree.new .empty ⟨[]⟩).run
      [.insert Bytes32.zero, .insert ones, .commit, .remove Bytes32.zero]) := by
  refine (viewsAgree_throughout_iff nodesNeverEmpty_guarded ⟨[]⟩ _).mpr ?_ _ (List.prefix_refl _)
  refine (Runs.forall_steps_cons_iff _ _ _).mpr ⟨?_, ?_⟩
  · rintro l ⟨⟩
    exact fits_zero
  refine (Runs.forall_steps_cons_iff _ _ _).mpr ⟨?_, ?_⟩
  · rintro l ⟨⟩
    exact fits_ones
  refine (Runs.forall_steps_cons_iff _ _ _).mpr ⟨?_, ?_⟩
  · rintro l ⟨⟩
  refine (Runs.forall_steps_cons_iff _ _ _).mpr ⟨?_, Runs.forall_steps_nil _⟩
  rintro l ⟨⟩

/-- Two leaves with the same first bytes. -/
theorem covered_leaf_listed :
    ((SparseMerkleTree.new .empty ⟨[]⟩).run [.insert Bytes32.zero, .insert nearZero]).contains
        Bytes32.zero = true ∧
      ((SparseMerkleTree.new .empty ⟨[]⟩).run [.insert Bytes32.zero, .insert nearZero]).proof
        Bytes32.zero = none ∧
      (((SparseMerkleTree.new .empty ⟨[]⟩).run [.insert Bytes32.zero, .insert nearZero]).remove
        Bytes32.zero).2 = false ∧
      ¬ ViewsAgree ((SparseMerkleTree.new .empty ⟨[]⟩).run
        [.insert Bytes32.zero, .insert nearZero]) :=
  views_of_covered ⟨[]⟩ fits_zero (by decide) (by decide)

end

end ElaraMesh.ZoneTree
