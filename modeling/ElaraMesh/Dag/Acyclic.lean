import ElaraMesh.Dag.Index
import ElaraMesh.Lib.Runs
import Mathlib.Logic.Relation

/-!
# Cycles in the record graph

Nothing in the index looks for cycles.  A record may be added before the records it refers
to, so two records that refer to each other are both accepted, and the edges of both are
wired once both are there.

What keeps the graph free of cycles is thus the references themselves.  Every edge of the
index was declared by some call, by the parents it lists or by an external parent that it
links: if these references form no cycle then no run of the index has one, and every cycle of
references is wired by some run.

## Main results

* `Within.step` — no call wires an edge that was not declared.
* `acyclic_iff` — runs that declare references of `R` only stay free of cycles exactly if `R` has
  no cycle.
-/

namespace ElaraMesh.Dag

open Record (Str ZoneId)

/-- Does a child refer to a parent by the edges that are wired? -/
def DagIndex.Edge (s : DagIndex) (child parent : Str) : Prop := s.parents.Rel child parent

/-- No chain of references leads back to where it started. -/
def Acyclic (R : Str → Str → Prop) : Prop := ∀ x, ¬ Relation.TransGen R x x

/-- Does a call bring the reference from a child to a parent? -/
def Call.declares : Call → Str → Str → Prop
  | .insert id parentIds _, child, parent => child = id ∧ parent ∈ parentIds
  | .insertWithZone id parentIds _ _, child, parent => child = id ∧ parent ∈ parentIds
  | .insertTolerant id parentIds _, child, parent => child = id ∧ parent ∈ parentIds
  | .insertTolerantWithZone id parentIds _ _, child, parent => child = id ∧ parent ∈ parentIds
  | .linkExternalParent childId parentId, child, parent => child = childId ∧ parent = parentId
  | _, _, _ => False

/-- Every edge that is wired, and every edge that waits for its parent, is in a relation. -/
structure Within (R : Str → Str → Prop) (s : DagIndex) : Prop where
  wired : ∀ c p, s.parents.Rel c p → R c p
  waiting : ∀ p c, s.orphanEdges.Rel p c → R c p

namespace Within

variable {R : Str → Str → Prop} {s s' : DagIndex}

theorem new : Within R DagIndex.new where
  wired _ _ h := absurd h (Table.rel_empty _ _)
  waiting _ _ h := absurd h (Table.rel_empty _ _)

/-- Only the edges count. -/
theorem of_subset (h : Within R s) (hp : ∀ c p, s'.parents.Rel c p → s.parents.Rel c p)
    (ho : ∀ p c, s'.orphanEdges.Rel p c → s.orphanEdges.Rel p c) : Within R s' where
  wired c p hc := h.wired c p (hp c p hc)
  waiting p c hc := h.waiting p c (ho p c hc)

theorem of_eq (h : Within R s) (hp : s'.parents = s.parents) (ho : s'.orphanEdges = s.orphanEdges) :
    Within R s' :=
  h.of_subset (fun _ _ => hp ▸ id) (fun _ _ => ho ▸ id)

variable {pid cid id : Str}

theorem wire (h : Within R s) (hR : R cid pid) : Within R (s.wire pid cid) where
  wired c p hc := by
    rcases Table.rel_link.mp hc with ⟨rfl, rfl⟩ | hc
    · exact hR
    · exact h.wired c p hc
  waiting := h.waiting

theorem wireOrWait (h : Within R s) (hR : R id pid) (n : ℕ) :
    Within R (DagIndex.wireOrWait id (s, n) pid).1 := by
  unfold DagIndex.wireOrWait
  split
  · exact h.wire hR
  · refine ⟨h.wired, fun p c hc => ?_⟩
    rcases Table.rel_link.mp hc with ⟨rfl, rfl⟩ | hc
    · exact hR
    · exact h.waiting p c hc

theorem forgetChild (h : Within R s) (id pid : Str) : Within R (DagIndex.forgetChild id s pid) := by
  unfold DagIndex.forgetChild
  split
  · exact h
  · dsimp only
    split
    · exact h.of_eq rfl rfl
    · exact h.of_eq rfl rfl

theorem forgetParent (h : Within R s) (id cid : Str) :
    Within R (DagIndex.forgetParent id s cid) := by
  unfold DagIndex.forgetParent
  split
  · exact h
  next parents hlookup =>
    -- The parents of `cid` lose one member, all others stay as they are.
    have hsub : ∀ c p, Table.Rel (s.parents.insert cid (parents.erase id)) c p →
        s.parents.Rel c p := by
      intro c p hc
      rw [Table.rel_insert] at hc
      split at hc
      · next heq =>
        rw [heq, Table.rel_of_lookup hlookup]
        exact Finset.mem_of_mem_erase hc
      · exact hc
    dsimp only
    split <;> exact h.of_subset hsub fun _ _ ho => ho

theorem wireWaiting (h : Within R s) (hR : R cid pid) (n : ℕ) :
    Within R (DagIndex.wireWaiting pid (s, n) cid).1 := by
  unfold DagIndex.wireWaiting
  split
  · exact (h.wire hR).of_eq rfl rfl
  · exact h

theorem erase_orphans (h : Within R s) (pid : Str) :
    Within R { s with orphanEdges := s.orphanEdges.erase pid } :=
  h.of_subset (fun _ _ hc => hc) fun _ _ hc => (Table.rel_erase.mp hc).2

theorem withZone (h : Within R s) (zones : Table Str ZoneId) :
    Within R { s with nodeZone := zones } :=
  h.of_eq rfl rfl

theorem insert (h : Within R s) {parentIds : List Str} {timestamp : F64}
    (hR : ∀ p ∈ parentIds, R id p) (hs' : s.insert id parentIds timestamp = .ok s') :
    Within R s' := by
  unfold DagIndex.insert at hs'
  split at hs'
  · cases hs'
  split at hs'
  · cases hs'
  have hwired : Within R (parentIds.foldl (fun s pid => s.wire pid id) s) :=
    List.foldlRecOn _ _ h fun _ hs pid hpid => hs.wire (hR pid hpid)
  cases hs'
  split <;> exact hwired.of_eq rfl rfl

theorem insertTolerant (h : Within R s) {parentIds : List Str} (timestamp : F64)
    (hR : ∀ p ∈ parentIds, R id p) : Within R (s.insertTolerant id parentIds timestamp).1 := by
  unfold DagIndex.insertTolerant
  split
  · exact h
  have hwired : Within R (parentIds.foldl (DagIndex.wireOrWait id) (s, 0)).1 :=
    List.foldlRecOn (motive := fun acc : DagIndex × ℕ => Within R acc.1) _ _ h
      fun acc hs pid hpid => hs.wireOrWait (hR pid hpid) acc.2
  dsimp only
  split <;> exact hwired.of_eq rfl rfl

theorem linkExternalParent (h : Within R s) (hR : R cid pid) :
    Within R (s.linkExternalParent cid pid) where
  wired c p hc := by
    rcases Table.rel_link.mp hc with ⟨rfl, rfl⟩ | hc
    · exact hR
    · exact h.wired c p hc
  waiting p c hc := h.waiting p c (Table.rel_unlink.mp hc).1

theorem dropGroups (target : ℕ) (groups : List (Str × Finset Str)) (n : ℕ) (h : Within R s) :
    Within R (DagIndex.dropGroups target groups (s, n)).1 := by
  induction groups generalizing s n with
  | nil => exact h
  | cons group rest ih =>
    unfold DagIndex.dropGroups
    split
    · exact h
    · exact ih _ (h.erase_orphans group.1)

variable [SetWalk Str]

theorem relinkSingleParent (h : Within R s) (pid : Str) :
    Within R (s.relinkSingleParent pid).1 := by
  unfold DagIndex.relinkSingleParent
  split
  next children hlookup =>
    refine List.foldlRecOn (motive := fun acc : DagIndex × ℕ => Within R acc.1) _ _
      (h.erase_orphans pid) ?_
    intro acc hacc cid hcid
    have hwaits : s.orphanEdges.Rel pid cid :=
      (Table.rel_of_lookup hlookup cid).mpr (SetWalk.mem_walk.mp hcid)
    exact hacc.wireWaiting (h.waiting pid cid hwaits) acc.2
  · exact h

theorem remove (h : Within R s) (id : Str) : Within R (s.remove id) := by
  unfold DagIndex.remove
  dsimp only
  split
  · exact h.erase_orphans id
  · refine List.foldlRecOn _ _ ?_ fun s hs cid _ => hs.forgetParent id cid
    refine of_eq (s := List.foldl _ _ _) ?_ rfl rfl
    refine List.foldlRecOn _ _ ?_ fun s hs pid _ => hs.forgetChild id pid
    exact (h.erase_orphans id).of_subset (fun c p hc => (Table.rel_erase.mp hc).2) fun _ _ hc => hc

theorem evict (h : Within R s) (ids : List Str) : Within R (s.evict ids).1 :=
  List.foldlRecOn ids _ h fun _ hs id _ => (hs.remove id).of_eq rfl rfl

theorem rebuildIndices (h : Within R s) : Within R s.rebuildIndices := by
  refine List.foldlRecOn _ _ (h.of_eq rfl rfl) ?_
  intro s hs id _
  unfold DagIndex.rebuildOne
  dsimp only
  split <;> split <;> exact hs.of_eq rfl rfl

variable [Iteration]

/-- No call wires an edge that was not declared. -/
theorem step (h : Within R s) {call : Call} (hR : ∀ c p, call.declares c p → R c p) :
    Within R (step s call) := by
  cases call with
  | rebuildIndices => exact h.rebuildIndices
  | markFinalized id epoch =>
    unfold Dag.step DagIndex.markFinalized
    dsimp only
    split
    · exact h.of_eq rfl rfl
    · exact h
  | setCurrentEpoch epoch =>
    unfold Dag.step DagIndex.setCurrentEpoch
    dsimp only
    split
    · exact h.of_eq rfl rfl
    · exact h
  | evictOldEpochs =>
    unfold Dag.step DagIndex.evictOldEpochs
    dsimp only
    split
    · exact h
    · exact h.evict _
  | evictFinalized isFinalized => exact h.evict _
  | evictOlderThan now maxAgeSecs => exact h.evict _
  | evictToCap maxRecords =>
    unfold Dag.step DagIndex.evictToCap
    dsimp only
    split
    · exact h
    · exact h.evict _
  | insert id parentIds timestamp =>
    unfold Dag.step
    dsimp only
    cases hs' : s.insert id parentIds timestamp with
    | error e => exact h
    | ok s' => exact h.insert (fun p hp => hR id p ⟨rfl, hp⟩) hs'
  | insertWithZone id parentIds timestamp zone =>
    unfold Dag.step
    dsimp only
    cases hs' : s.insertWithZone id parentIds timestamp zone with
    | error e => exact h
    | ok s' =>
      unfold DagIndex.insertWithZone at hs'
      split at hs'
      · cases hs'
      split at hs'
      · cases hs'
      · exact (h.withZone _).insert (fun p hp => hR id p ⟨rfl, hp⟩) hs'
  | insertTolerant id parentIds timestamp =>
    exact h.insertTolerant timestamp fun p hp => hR id p ⟨rfl, hp⟩
  | insertTolerantWithZone id parentIds timestamp zone =>
    unfold Dag.step DagIndex.insertTolerantWithZone
    dsimp only
    split
    · exact h
    · exact (h.withZone _).insertTolerant timestamp fun p hp => hR id p ⟨rfl, hp⟩
  | setNodeZone id zone =>
    unfold Dag.step DagIndex.setNodeZone
    dsimp only
    split
    · exact h
    split
    · exact h.of_eq rfl rfl
    · exact h.of_eq rfl rfl
  | linkExternalParent childId parentId =>
    exact h.linkExternalParent (hR childId parentId ⟨rfl, rfl⟩)
  | relinkSingleParent parentId => exact h.relinkSingleParent parentId
  | reindexOrphans =>
    exact List.foldlRecOn (motive := fun acc : DagIndex × ℕ => Within R acc.1) _ _ h
      fun _ hs pid _ => hs.relinkSingleParent pid
  | removeOrphanParent parentId =>
    unfold Dag.step DagIndex.removeOrphanParent
    dsimp only
    split
    · exact h.erase_orphans parentId
    · exact h
  | pruneOrphanEdges maxEntries =>
    unfold Dag.step DagIndex.pruneOrphanEdges
    dsimp only
    split
    · exact h
    · exact h.dropGroups _ _ 0
  | remove id => exact h.remove id

theorem run (h : Within R s) {calls : List Call}
    (hR : ∀ call ∈ calls, ∀ c p, call.declares c p → R c p) : Within R (calls.foldl Dag.step s) :=
  List.foldlRecOn calls _ h fun _ hs call hcall => hs.step (hR call hcall)

end Within

/-! ### A run for each chain of references -/

/-- Link external parents one after the other. -/
def linkAll (references : List (Str × Str)) : List Call :=
  references.map fun r => .linkExternalParent r.1 r.2

theorem exists_references {R : Str → Str → Prop} {x y : Str} (h : Relation.TransGen R x y) :
    ∃ references : List (Str × Str), (∀ r ∈ references, R r.1 r.2) ∧
      Relation.TransGen (fun c p => (c, p) ∈ references) x y := by
  induction h with
  | single hxy =>
    refine ⟨[(x, _)], fun r hr => ?_, .single (List.mem_singleton_self _)⟩
    rw [List.mem_singleton.mp hr]
    exact hxy
  | tail _ hyz ih =>
    obtain ⟨references, hR, hpath⟩ := ih
    refine ⟨(_, _) :: references, fun r hr => ?_, .tail (hpath.lift id fun c p => ?_)
      List.mem_cons_self⟩
    · rcases List.mem_cons.mp hr with rfl | hr
      · exact hyz
      · exact hR r hr
    · exact List.mem_cons_of_mem _

section Runs

variable [SetWalk Str] [Iteration]

theorem edge_linkAll (references : List (Str × Str)) (s : DagIndex) (c p : Str) :
    ((linkAll references).foldl step s).Edge c p ↔ (c, p) ∈ references ∨ s.Edge c p := by
  induction references generalizing s with
  | nil => simp [linkAll]
  | cons r references ih =>
    have hfirst : (step s (.linkExternalParent r.1 r.2)).Edge c p ↔ (c, p) = r ∨ s.Edge c p := by
      refine Table.rel_link.trans (or_congr_left ?_)
      rw [Prod.ext_iff]
    refine (ih _).trans ?_
    rw [hfirst, List.mem_cons]
    tauto

/-- **When the graph has no cycle.**  Every run that declares references of `R` only leaves
an index without cycles, whatever else it calls, exactly if `R` has no cycle. -/
theorem acyclic_iff (R : Str → Str → Prop) :
    (∀ calls : List Call, (∀ call ∈ calls, ∀ c p, call.declares c p → R c p) →
      Acyclic (calls.foldl step DagIndex.new).Edge) ↔ Acyclic R := by
  constructor
  · intro hruns x hx
    obtain ⟨references, hR, hpath⟩ := exists_references hx
    refine hruns (linkAll references) ?_ x (hpath.lift id fun c p hcp => ?_)
    · intro call hcall c p hcp
      obtain ⟨r, hr, rfl⟩ := List.mem_map.mp hcall
      obtain ⟨rfl, rfl⟩ : c = r.1 ∧ p = r.2 := hcp
      exact hR r hr
    · exact (edge_linkAll references DagIndex.new c p).mpr (.inl hcp)
  · intro hacyclic calls hR x hx
    have hwithin : Within R (calls.foldl step DagIndex.new) := Within.new.run hR
    exact hacyclic x (hx.lift id hwithin.wired)

end Runs

section MutualReferences

attribute [local instance] SetWalk.sorted Iteration.stored

/-- Two records that refer to each other. -/
def mutualReferences : List Call :=
  [.insertTolerant (Str.text "a") [Str.text "b"] F64.zero,
    .insertTolerant (Str.text "b") [Str.text "a"] F64.zero,
    .relinkSingleParent (Str.text "b")]

theorem mutualReferences_cycle :
    ¬ Acyclic (mutualReferences.foldl step DagIndex.new).Edge := by
  intro hacyclic
  have hba : (mutualReferences.foldl step DagIndex.new).Edge (Str.text "b") (Str.text "a") := by
    unfold DagIndex.Edge Table.Rel
    decide +kernel
  have hab : (mutualReferences.foldl step DagIndex.new).Edge (Str.text "a") (Str.text "b") := by
    unfold DagIndex.Edge Table.Rel
    decide +kernel
  exact hacyclic (Str.text "a") (.tail (.single hab) hba)

end MutualReferences

end ElaraMesh.Dag
