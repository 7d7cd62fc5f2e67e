import ElaraMesh.Dag.Index

/-!
# The order in which records arrive

An edge is wired when its child is added, if the parent is there, and else when the parent
arrives.  The tips and the roots are kept up to date at both times.

An index represents a graph: which records are there, which references are wired and which
wait, and which records have no parents.  Each part of an arrival does one thing to the
graph, and after the arrivals of a list of records the graph is the one that the records
describe as a set, whatever the order and however the sets were walked.

## Main results

* `Represents.same` — one graph, one index, as far as it can be seen.
* `represents_arrive` — what an arrival does to the graph.
* `arrive_confluent` — the order of the arrivals does not count.
-/

namespace ElaraMesh.Dag

open Record (Str ZoneId)

/-- A record as the index sees it. -/
structure Arrival where
  id : Str
  parentIds : List Str
  timestamp : F64
  /-- The zone, where the caller has it at hand. -/
  zone : Option ZoneId

/-- Add a record and wire the records that have waited for it. -/
def arrive [SetWalk Str] (s : DagIndex) (r : Arrival) : DagIndex :=
  let added := match r.zone with
    | some zone => (s.insertTolerantWithZone r.id r.parentIds r.timestamp zone).1
    | none => (s.insertTolerant r.id r.parentIds r.timestamp).1
  (added.relinkSingleParent r.id).1

/-! ### Graphs -/

/-- The records of an index and their references. -/
@[ext] structure Graph where
  nodes : Set Str
  roots : Set Str
  /-- The references of a child to a parent that are wired. -/
  linked : Str → Str → Prop
  /-- The references of a child to a parent that has not arrived. -/
  waiting : Str → Str → Prop
  zone : Str → ZoneId → Prop

namespace Graph

def link (g : Graph) (c p : Str) : Graph :=
  { g with linked := fun child parent => g.linked child parent ∨ (child = c ∧ parent = p) }

/-- Wait for the parent of a reference. -/
def wait (g : Graph) (c p : Str) : Graph :=
  { g with waiting := fun child parent => g.waiting child parent ∨ (child = c ∧ parent = p) }

/-- Wait for nobody under an identifier. -/
def arrived (g : Graph) (p : Str) : Graph :=
  { g with waiting := fun child parent => g.waiting child parent ∧ parent ≠ p }

def addNode (g : Graph) (x : Str) : Graph := { g with nodes := {x} ∪ g.nodes }

def addRoot (g : Graph) (x : Str) : Graph := { g with roots := {x} ∪ g.roots }

def dropRoot (g : Graph) (x : Str) : Graph := { g with roots := g.roots \ {x} }

def setZone (g : Graph) (x : Str) (z : ZoneId) : Graph :=
  { g with zone := fun y z' => if y = x then z' = z else g.zone y z' }

/-- The parents of a record: those that are there are wired, the others waited for. -/
def refer (g : Graph) (c : Str) (ps : List Str) : Graph :=
  { g with
    linked := fun child parent =>
      g.linked child parent ∨ (child = c ∧ parent ∈ ps ∧ parent ∈ g.nodes)
    waiting := fun child parent =>
      g.waiting child parent ∨ (child = c ∧ parent ∈ ps ∧ parent ∉ g.nodes) }

/-- A new record, which is a root if none of its parents is there. -/
def add (g : Graph) (c : Str) (ps : List Str) : Graph :=
  { (g.refer c ps).addNode c with
    roots := {x | x = c ∧ ∀ p ∈ ps, p ∉ g.nodes} ∪ g.roots }

/-- Wire some children of a parent, which are no roots any more. -/
def relink (g : Graph) (p : Str) (cs : Str → Prop) : Graph :=
  { g with
    linked := fun child parent => g.linked child parent ∨ (cs child ∧ parent = p)
    roots := g.roots \ {c | cs c} }

variable {g : Graph} {p : Str}

theorem refer_cons_of_mem (c : Str) (hp : p ∈ g.nodes) (ps : List Str) :
    g.refer c (p :: ps) = (g.link c p).refer c ps := by
  ext child parent
  · rfl
  · rfl
  · simp only [refer, link, List.mem_cons]
    by_cases hparent : parent = p
    · subst hparent
      tauto
    · tauto
  · simp only [refer, link, List.mem_cons]
    by_cases hparent : parent = p
    · subst hparent
      tauto
    · tauto
  · rfl

theorem refer_cons_of_notMem (c : Str) (hp : p ∉ g.nodes) (ps : List Str) :
    g.refer c (p :: ps) = (g.wait c p).refer c ps := by
  ext child parent
  · rfl
  · rfl
  · simp only [refer, wait, List.mem_cons]
    by_cases hparent : parent = p
    · subst hparent
      tauto
    · tauto
  · simp only [refer, wait, List.mem_cons]
    by_cases hparent : parent = p
    · subst hparent
      tauto
    · tauto
  · rfl

theorem add_of_missing (c : Str) {ps : List Str} (h : ∀ p ∈ ps, p ∉ g.nodes) :
    g.add c ps = ((g.refer c ps).addNode c).addRoot c := by
  have hroots : {x | x = c ∧ ∀ p ∈ ps, p ∉ g.nodes} = {c} :=
    Set.ext fun x => and_iff_left h
  unfold add
  rw [hroots]
  rfl

theorem add_of_linked (c : Str) {ps : List Str} (h : ¬ ∀ p ∈ ps, p ∉ g.nodes) :
    g.add c ps = (g.refer c ps).addNode c := by
  have hroots : {x | x = c ∧ ∀ p ∈ ps, p ∉ g.nodes} = ∅ :=
    Set.eq_empty_of_forall_notMem fun x hx => h hx.2
  unfold add
  rw [hroots, Set.empty_union]
  rfl

theorem relink_cons (p c : Str) (cs : List Str) :
    g.relink p (· ∈ c :: cs) = ((g.link c p).dropRoot c).relink p (· ∈ cs) := by
  ext x y
  · rfl
  · simp only [relink, link, dropRoot, List.mem_cons, Set.mem_sdiff, Set.mem_ofPred_eq,
      Set.mem_singleton_iff]
    tauto
  · simp only [relink, link, dropRoot, List.mem_cons]
    tauto
  · rfl
  · rfl

theorem relink_arrived_of_none (h : ∀ c, ¬ g.waiting c p) :
    (g.arrived p).relink p (g.waiting · p) = g := by
  ext x y
  · rfl
  · simp [relink, arrived, h]
  · simp [relink, arrived, h]
  · simp only [relink, arrived, and_iff_left_iff_imp]
    rintro hxy rfl
    exact h x hxy
  · rfl

/-- A record that nobody refers to. -/
def IsTip (g : Graph) (x : Str) : Prop := x ∈ g.nodes ∧ ∀ c, ¬ g.linked c x

end Graph

/-- The parts of an index that the order of the arrivals might show in. -/
def Same (s s' : DagIndex) : Prop :=
  (∀ c, s.parents.lookup c = s'.parents.lookup c) ∧
    (∀ p, s.children.lookup p = s'.children.lookup p) ∧
    s.tipsIdx = s'.tipsIdx ∧
    (∀ z, s.tipsPerZone.lookup z = s'.tipsPerZone.lookup z) ∧
    s.rootsIdx = s'.rootsIdx ∧
    (∀ p, s.orphanEdges.lookup p = s'.orphanEdges.lookup p) ∧
    s.nodes = s'.nodes

structure Represents (g : Graph) (s : DagIndex) : Prop where
  nodes : ∀ x, x ∈ s.nodes ↔ x ∈ g.nodes
  roots : ∀ x, x ∈ s.rootsIdx ↔ x ∈ g.roots
  parents : ∀ c p, s.parents.Rel c p ↔ g.linked c p
  children : ∀ p c, s.children.Rel p c ↔ g.linked c p
  orphans : ∀ p c, s.orphanEdges.Rel p c ↔ g.waiting c p
  zone : ∀ x z, s.nodeZone.lookup x = some z ↔ g.zone x z
  tips : ∀ x, x ∈ s.tipsIdx ↔ g.IsTip x
  zoneTips : ∀ z x, s.tipsPerZone.Rel z x ↔ g.IsTip x ∧ g.zone x z
  tight_parents : s.parents.Tight
  tight_children : s.children.Tight
  tight_orphans : s.orphanEdges.Tight
  tight_zoneTips : s.tipsPerZone.Tight

namespace Represents

variable {g : Graph} {s s' : DagIndex}

theorem new : Represents ⟨∅, ∅, fun _ _ => False, fun _ _ => False, fun _ _ => False⟩
    DagIndex.new where
  nodes x := by simp [DagIndex.new]
  roots x := by simp [DagIndex.new]
  parents c p := by simp [DagIndex.new]
  children p c := by simp [DagIndex.new]
  orphans p c := by simp [DagIndex.new]
  zone x z := by simp [DagIndex.new]
  tips x := by simp [DagIndex.new, Graph.IsTip]
  zoneTips z x := by simp [DagIndex.new]
  tight_parents := Table.tight_empty
  tight_children := Table.tight_empty
  tight_orphans := Table.tight_empty
  tight_zoneTips := Table.tight_empty

/-- The parents, children, tips, roots and orphans are determined by the graph. -/
theorem same (h : Represents g s) (h' : Represents g s') : Same s s' := by
  refine ⟨?_, ?_, ?_, ?_, ?_, ?_, ?_⟩
  · exact Table.lookup_eq_of_rel h.tight_parents h'.tight_parents fun c p =>
      (h.parents c p).trans (h'.parents c p).symm
  · exact Table.lookup_eq_of_rel h.tight_children h'.tight_children fun p c =>
      (h.children p c).trans (h'.children p c).symm
  · exact Finset.ext fun x => (h.tips x).trans (h'.tips x).symm
  · exact Table.lookup_eq_of_rel h.tight_zoneTips h'.tight_zoneTips fun z x =>
      (h.zoneTips z x).trans (h'.zoneTips z x).symm
  · exact Finset.ext fun x => (h.roots x).trans (h'.roots x).symm
  · exact Table.lookup_eq_of_rel h.tight_orphans h'.tight_orphans fun p c =>
      (h.orphans p c).trans (h'.orphans p c).symm
  · exact Finset.ext fun x => (h.nodes x).trans (h'.nodes x).symm

/-! ### What the parts of an arrival do to the graph -/

theorem rel_tipsPerZoneRemove (s : DagIndex) (id : Str) (z : ZoneId) (x : Str) :
    (s.tipsPerZoneRemove id).tipsPerZone.Rel z x ↔
      s.tipsPerZone.Rel z x ∧ ¬ (s.nodeZone.lookup id = some z ∧ x = id) := by
  unfold DagIndex.tipsPerZoneRemove
  cases s.nodeZone.lookup id with
  | none => simp
  | some zone => simp [eq_comm]

theorem rel_tipsPerZoneInsert (s : DagIndex) (id : Str) (z : ZoneId) (x : Str) :
    (s.tipsPerZoneInsert id).tipsPerZone.Rel z x ↔
      (s.nodeZone.lookup id = some z ∧ x = id) ∨ s.tipsPerZone.Rel z x := by
  unfold DagIndex.tipsPerZoneInsert
  cases s.nodeZone.lookup id with
  | none => simp
  | some zone => simp [eq_comm]

theorem tight_tipsPerZoneRemove (h : s.tipsPerZone.Tight) (id : Str) :
    (s.tipsPerZoneRemove id).tipsPerZone.Tight := by
  unfold DagIndex.tipsPerZoneRemove
  cases s.nodeZone.lookup id with
  | none => exact h
  | some zone => exact Table.tight_unlink h zone id

theorem tight_tipsPerZoneInsert (h : s.tipsPerZone.Tight) (id : Str) :
    (s.tipsPerZoneInsert id).tipsPerZone.Tight := by
  unfold DagIndex.tipsPerZoneInsert
  cases s.nodeZone.lookup id with
  | none => exact h
  | some zone => exact Table.tight_link h zone id

theorem isTip_link (c p x : Str) : (g.link c p).IsTip x ↔ g.IsTip x ∧ x ≠ p := by
  unfold Graph.IsTip Graph.link
  constructor
  · rintro ⟨hx, hnone⟩
    exact ⟨⟨hx, fun c' hc' => hnone c' (.inl hc')⟩, fun hxp => hnone c (.inr ⟨rfl, hxp⟩)⟩
  · rintro ⟨⟨hx, hnone⟩, hne⟩
    exact ⟨hx, fun c' hc' => hc'.elim (hnone c') fun heq => hne heq.2⟩

theorem wire (h : Represents g s) (p c : Str) : Represents (g.link c p) (s.wire p c) where
  nodes := h.nodes
  roots := h.roots
  parents c' p' := by
    refine Table.rel_link.trans ?_
    rw [h.parents, or_comm]
    rfl
  children p' c' := by
    refine Table.rel_link.trans ?_
    rw [h.children, or_comm, and_comm]
    rfl
  orphans := h.orphans
  zone := h.zone
  tips x := by
    refine Finset.mem_erase.trans ?_
    rw [h.tips, isTip_link, and_comm]
  zoneTips z x := by
    refine (rel_tipsPerZoneRemove _ p z x).trans ?_
    rw [isTip_link]
    refine (and_congr (h.zoneTips z x) (not_congr (and_congr_left' (h.zone p z)))).trans ?_
    constructor
    · rintro ⟨⟨htip, hz⟩, hne⟩
      exact ⟨⟨htip, fun hx => hne ⟨hx ▸ hz, hx⟩⟩, hz⟩
    · rintro ⟨⟨htip, hne⟩, hz⟩
      exact ⟨⟨htip, hz⟩, fun heq => hne heq.2⟩
  tight_parents := Table.tight_link h.tight_parents c p
  tight_children := Table.tight_link h.tight_children p c
  tight_orphans := h.tight_orphans
  tight_zoneTips := tight_tipsPerZoneRemove (s := { s with .. }) h.tight_zoneTips p

theorem wait (h : Represents g s) (p c : Str) :
    Represents (g.wait c p) { s with orphanEdges := s.orphanEdges.link p c } :=
  { h with
    orphans := fun p' c' => by
      refine Table.rel_link.trans ?_
      rw [h.orphans, or_comm, and_comm]
      rfl
    tight_orphans := Table.tight_link h.tight_orphans p c }

theorem arrived (h : Represents g s) (p : Str) :
    Represents (g.arrived p) { s with orphanEdges := s.orphanEdges.erase p } :=
  { h with
    orphans := fun p' c' => by
      refine Table.rel_erase.trans ?_
      rw [h.orphans, and_comm]
      rfl
    tight_orphans := Table.tight_erase h.tight_orphans p }

theorem addRoot (h : Represents g s) (x : Str) :
    Represents (g.addRoot x) { s with rootsIdx := insert x s.rootsIdx } :=
  { h with
    roots := fun y => by
      refine Finset.mem_insert.trans ?_
      rw [h.roots]
      rfl }

theorem dropRoot (h : Represents g s) (x : Str) :
    Represents (g.dropRoot x) { s with rootsIdx := s.rootsIdx.erase x } :=
  { h with
    roots := fun y => by
      refine Finset.mem_erase.trans ?_
      rw [h.roots, and_comm]
      rfl }

/-- A zone is noted before the record is there. -/
theorem setZone (h : Represents g s) {x : Str} (hx : x ∉ g.nodes) (z : ZoneId) :
    Represents (g.setZone x z) { s with nodeZone := s.nodeZone.insert x z } :=
  { h with
    zone := fun y z' => by
      have hlookup := Table.lookup_insert_eq s.nodeZone x y z
      by_cases hy : y = x
      · rw [if_pos hy] at hlookup
        simp [Graph.setZone, hy, hlookup, eq_comm]
      · rw [if_neg hy] at hlookup
        simp [Graph.setZone, hy, hlookup, h.zone]
    zoneTips := fun z' y => by
      refine (h.zoneTips z' y).trans (and_congr_right fun htip => ?_)
      have hy : y ≠ x := fun hy => hx (hy ▸ htip.1)
      simp [Graph.setZone, hy] }

/-- A record that nobody refers to yet. -/
theorem addNode (h : Represents g s) {x : Str} (hx : ∀ c, ¬ g.linked c x) (timestamp : F64) :
    Represents (g.addNode x) (s.addNode x timestamp) := by
  have htip : ∀ y, (g.addNode x).IsTip y ↔ y = x ∨ g.IsTip y := by
    intro y
    constructor
    · rintro ⟨hy, hnone⟩
      exact hy.imp_right fun hy => ⟨hy, hnone⟩
    · rintro (rfl | ⟨hy, hnone⟩)
      · exact ⟨.inl rfl, hx⟩
      · exact ⟨.inr hy, hnone⟩
  refine { h with nodes := ?_, tips := ?_, zoneTips := ?_, tight_zoneTips := ?_ }
  · intro y
    refine Finset.mem_insert.trans ?_
    rw [h.nodes]
    rfl
  · intro y
    refine Finset.mem_insert.trans ?_
    rw [htip, h.tips]
  · intro z y
    refine (rel_tipsPerZoneInsert _ x z y).trans ?_
    rw [htip]
    refine (or_congr (and_congr_left' (h.zone x z)) (h.zoneTips z y)).trans ?_
    constructor
    · rintro (⟨hz, rfl⟩ | ⟨hy, hz⟩)
      · exact ⟨.inl rfl, hz⟩
      · exact ⟨.inr hy, hz⟩
    · rintro ⟨rfl | hy, hz⟩
      · exact .inl ⟨hz, rfl⟩
      · exact .inr ⟨hy, hz⟩
  · exact tight_tipsPerZoneInsert (s := { s with .. }) h.tight_zoneTips x

/-- A new record refers to its parents: to those that are there, and to those it waits for. -/
theorem foldl_wireOrWait (h : Represents g s) (id : Str) (parentIds : List Str) (n : ℕ) :
    Represents (g.refer id parentIds) (parentIds.foldl (DagIndex.wireOrWait id) (s, n)).1 ∧
      (parentIds.foldl (DagIndex.wireOrWait id) (s, n)).2 = n + parentIds.countP (· ∉ s.nodes) := by
  induction parentIds generalizing g s n with
  | nil =>
    have hnil : g.refer id [] = g := by
      ext <;> simp [Graph.refer]
    rw [hnil]
    exact ⟨h, rfl⟩
  | cons p parentIds ih =>
    rw [List.foldl_cons, List.countP_cons]
    by_cases hp : p ∈ s.nodes
    · have hstep : DagIndex.wireOrWait id (s, n) p = (s.wire p id, n) := if_pos hp
      have hg : g.refer id (p :: parentIds) = (g.link id p).refer id parentIds :=
        Graph.refer_cons_of_mem id ((h.nodes p).mp hp) parentIds
      obtain ⟨hrep, hcount⟩ := ih (h.wire p id) n
      rw [hstep, hg, if_neg (by simpa using hp)]
      exact ⟨hrep, hcount⟩
    · have hstep : DagIndex.wireOrWait id (s, n) p =
          ({ s with orphanEdges := s.orphanEdges.link p id }, n + 1) := if_neg hp
      have hg : g.refer id (p :: parentIds) = (g.wait id p).refer id parentIds :=
        Graph.refer_cons_of_notMem id (fun hmem => hp ((h.nodes p).mpr hmem)) parentIds
      obtain ⟨hrep, hcount⟩ := ih (h.wait p id) (n + 1)
      rw [hstep, hg, if_pos (by simpa using hp)]
      exact ⟨hrep, hcount.trans (Nat.add_right_comm n 1 _)⟩

theorem foldl_wireWaiting (h : Represents g s) (p : Str) (cs : List Str) (n : ℕ)
    (hcs : ∀ c ∈ cs, c ∈ g.nodes) :
    Represents (g.relink p (· ∈ cs)) (cs.foldl (DagIndex.wireWaiting p) (s, n)).1 := by
  induction cs generalizing g s n with
  | nil =>
    have hnil : g.relink p (· ∈ []) = g := by
      ext <;> simp [Graph.relink]
    rw [hnil]
    exact h
  | cons c cs ih =>
    have hc : c ∈ s.nodes := (h.nodes c).mpr (hcs c List.mem_cons_self)
    have hstep : DagIndex.wireWaiting p (s, n) c =
        ({ s.wire p c with rootsIdx := (s.wire p c).rootsIdx.erase c }, n + 1) := if_pos hc
    have hg : g.relink p (· ∈ c :: cs) = ((g.link c p).dropRoot c).relink p (· ∈ cs) :=
      Graph.relink_cons p c cs
    rw [List.foldl_cons, hstep, hg]
    exact ih ((h.wire p c).dropRoot c) (n + 1) fun c' hc' => hcs c' (List.mem_cons_of_mem c hc')

/-- A new record, with the references to its parents. -/
theorem insertTolerant (h : Represents g s) {id : Str} (hid : id ∉ g.nodes)
    (hlinked : ∀ c, ¬ g.linked c id) (parentIds : List Str) (timestamp : F64) :
    Represents (g.add id parentIds) (s.insertTolerant id parentIds timestamp).1 := by
  have hnew : id ∉ s.nodes := fun hmem => hid ((h.nodes id).mp hmem)
  obtain ⟨hrefer, hmissing⟩ := h.foldl_wireOrWait id parentIds 0
  have hnobody : ∀ c, ¬ (g.refer id parentIds).linked c id := by
    rintro c (hc | ⟨-, -, hmem⟩)
    · exact hlinked c hc
    · exact hid hmem
  have hnode := hrefer.addNode hnobody timestamp
  -- All parents are missing exactly if none of them is in the index.
  have hroot : (parentIds = [] ∨
      (parentIds.foldl (DagIndex.wireOrWait id) (s, 0)).2 = parentIds.length) ↔
      ∀ p ∈ parentIds, p ∉ g.nodes := by
    rw [hmissing, Nat.zero_add, List.countP_eq_length]
    simp only [decide_eq_true_eq, h.nodes]
    exact or_iff_right_of_imp fun hnil p hp => absurd (hnil ▸ hp) List.not_mem_nil
  unfold DagIndex.insertTolerant
  rw [if_neg hnew]
  dsimp only
  split
  next hmem =>
    rw [Graph.add_of_missing id (hroot.mp hmem)]
    exact hnode.addRoot id
  next hmem =>
    rw [Graph.add_of_linked id fun hall => hmem (hroot.mpr hall)]
    exact hnode

/-- The records that have waited for a parent are wired. -/
theorem relinkSingleParent [SetWalk Str] (h : Represents g s) (p : Str)
    (hwaiting : ∀ c, g.waiting c p → c ∈ g.nodes) :
    Represents ((g.arrived p).relink p (g.waiting · p)) (s.relinkSingleParent p).1 := by
  unfold DagIndex.relinkSingleParent
  split
  next cs hlookup =>
    have hmem : ∀ c, c ∈ SetWalk.walk cs ↔ g.waiting c p := fun c =>
      SetWalk.mem_walk.trans ((Table.rel_of_lookup hlookup c).symm.trans (h.orphans p c))
    rw [← funext fun c => propext (hmem c)]
    exact (h.arrived p).foldl_wireWaiting p _ 0 fun c hc => hwaiting c ((hmem c).mp hc)
  next hlookup =>
    have hnone : ∀ c, ¬ g.waiting c p := fun c hc =>
      Table.not_rel_of_lookup hlookup c ((h.orphans p c).mpr hc)
    have hg : (g.arrived p).relink p (g.waiting · p) = g :=
      Graph.relink_arrived_of_none hnone
    rw [hg]
    exact h

end Represents

/-! ### The graph of a set of records -/

def Arrived (l : List Arrival) (x : Str) : Prop := ∃ r ∈ l, r.id = x

def Refers (l : List Arrival) (c p : Str) : Prop := ∃ r ∈ l, r.id = c ∧ p ∈ r.parentIds

/-- The graph of a set of records: a reference is wired if both ends are there. -/
def graphOf (l : List Arrival) : Graph where
  nodes := {x | Arrived l x}
  roots := {x | Arrived l x ∧ ∀ p, ¬ (Refers l x p ∧ Arrived l p)}
  linked c p := Refers l c p ∧ Arrived l p
  waiting c p := Refers l c p ∧ ¬ Arrived l p
  zone x z := ∃ r ∈ l, r.id = x ∧ r.zone = some z

variable {l : List Arrival} {r : Arrival}

theorem Refers.arrived {c p : Str} (h : Refers l c p) : Arrived l c := by
  obtain ⟨r, hr, hid, -⟩ := h
  exact ⟨r, hr, hid⟩

theorem arrived_cons {x : Str} :
    Arrived (r :: l) x ↔ x = r.id ∨ Arrived l x := by
  unfold Arrived
  rw [List.exists_mem_cons_iff, eq_comm]

theorem refers_cons {c p : Str} :
    Refers (r :: l) c p ↔ (c = r.id ∧ p ∈ r.parentIds) ∨ Refers l c p := by
  unfold Refers
  rw [List.exists_mem_cons_iff, eq_comm]

theorem graphOf_eq_of_perm {l' : List Arrival} (h : l.Perm l') : graphOf l = graphOf l' := by
  have hex : ∀ P : Arrival → Prop, (∃ r ∈ l, P r) = ∃ r ∈ l', P r := fun P =>
    propext (exists_congr fun r => and_congr_left' h.mem_iff)
  unfold graphOf Refers Arrived
  simp only [hex]

/-- Note the zone of a record if it has one. -/
def Graph.zoned (g : Graph) (r : Arrival) : Graph :=
  match r.zone with
  | some zone => g.setZone r.id zone
  | none => g

theorem Graph.zoned_eq (g : Graph) (r : Arrival) :
    g.zoned r = { g with zone := (g.zoned r).zone } := by
  unfold Graph.zoned
  split <;> rfl

def Graph.arrive (g : Graph) (r : Arrival) : Graph :=
  let added := (g.zoned r).add r.id r.parentIds
  (added.arrived r.id).relink r.id (added.waiting · r.id)

theorem arrive_eq (hr : ¬ Arrived l r.id) :
    (graphOf l).arrive r = graphOf (r :: l) := by
  have hrefers : ∀ p, ¬ Refers l r.id p := fun p hp => hr hp.arrived
  unfold Graph.arrive
  rw [Graph.zoned_eq]
  ext x y
  · exact arrived_cons.symm
  · -- The roots: the new record is compared with its parents, the others with the new record.
    simp only [graphOf, Graph.relink, Graph.arrived, Graph.add, Graph.addNode, Graph.refer,
      Set.mem_sdiff, Set.mem_union, Set.mem_ofPred_eq, arrived_cons, refers_cons]
    by_cases hx : x = r.id
    · subst hx
      grind
    · grind
  · simp only [graphOf, Graph.relink, Graph.arrived, Graph.add, Graph.addNode, Graph.refer,
      Set.mem_ofPred_eq, arrived_cons, refers_cons]
    grind
  · simp only [graphOf, Graph.relink, Graph.arrived, Graph.add, Graph.addNode, Graph.refer,
      Set.mem_ofPred_eq, arrived_cons, refers_cons]
    grind
  · show ((graphOf l).zoned r).zone x y ↔ ∃ r' ∈ r :: l, r'.id = x ∧ r'.zone = some y
    rw [List.exists_mem_cons_iff]
    unfold Graph.zoned
    cases hz : r.zone with
    | none => simp [graphOf]
    | some zone =>
      by_cases hx : x = r.id
      · have hnone : ¬ ∃ r' ∈ l, r'.id = x ∧ r'.zone = some y := fun ⟨r', hr', hid, _⟩ =>
          hr ⟨r', hr', hid.trans hx⟩
        rw [or_iff_left hnone]
        simp [Graph.setZone, hx, eq_comm]
      · simp [Graph.setZone, graphOf, hx, Ne.symm hx]

theorem represents_arrive [SetWalk Str] {s : DagIndex}
    (h : Represents (graphOf l) s) (hr : ¬ Arrived l r.id) :
    Represents (graphOf (r :: l)) (arrive s r) := by
  have hnew : r.id ∉ s.nodes := fun hmem => hr ((h.nodes r.id).mp hmem)
  have hlinked : ∀ c, ¬ (graphOf l).linked c r.id := fun c hc => hr hc.2
  have hwaiting : ∀ c, (((graphOf l).zoned r).add r.id r.parentIds).waiting c r.id →
      c ∈ (((graphOf l).zoned r).add r.id r.parentIds).nodes := by
    rw [Graph.zoned_eq]
    rintro c (hc | ⟨rfl, -, -⟩)
    · exact .inr hc.1.arrived
    · exact .inl rfl
  rw [← arrive_eq hr]
  unfold arrive
  refine Represents.relinkSingleParent ?_ r.id hwaiting
  unfold Graph.zoned
  cases r.zone with
  | none => exact h.insertTolerant hr hlinked r.parentIds r.timestamp
  | some zone =>
    have hzoned := h.setZone hr zone
    have hinsert := hzoned.insertTolerant hr hlinked r.parentIds r.timestamp
    dsimp only [DagIndex.insertTolerantWithZone]
    rw [if_neg hnew]
    exact hinsert

theorem represents_foldl_arrive [SetWalk Str] {l : List Arrival} (hl : (l.map Arrival.id).Nodup) :
    Represents (graphOf l) (l.foldl arrive DagIndex.new) := by
  induction l using List.reverseRecOn with
  | nil =>
    have hnil : graphOf [] = ⟨∅, ∅, fun _ _ => False, fun _ _ => False, fun _ _ => False⟩ := by
      ext <;> simp [graphOf, Refers, Arrived]
    rw [hnil]
    exact Represents.new
  | append_singleton l r ih =>
    rw [List.map_append, List.nodup_append] at hl
    have hr : ¬ Arrived l r.id := by
      rintro ⟨r', hr', hid⟩
      exact hl.2.2 r'.id (List.mem_map_of_mem hr') r.id (List.mem_singleton_self _) hid
    rw [List.foldl_concat, graphOf_eq_of_perm (List.perm_append_singleton r l)]
    exact represents_arrive (ih hl.1) hr

/-- **Confluence.**  Records with distinct identifiers, whatever they refer to, leave the same
parents, children, tips, tips per zone, roots and orphans in every order of their arrival. -/
theorem arrive_confluent (walk walk' : SetWalk Str) {l l' : List Arrival} (hperm : l.Perm l')
    (hl : (l.map Arrival.id).Nodup) :
    Same (l.foldl (@arrive walk) DagIndex.new) (l'.foldl (@arrive walk') DagIndex.new) := by
  have hl' : (l'.map Arrival.id).Nodup := (hperm.map Arrival.id).nodup_iff.mp hl
  have hfirst := @represents_foldl_arrive walk l hl
  rw [graphOf_eq_of_perm hperm] at hfirst
  exact hfirst.same (@represents_foldl_arrive walk' l' hl')

/-- Two records that refer to each other, one of them to a third that never arrives. -/
def crossing : List Arrival :=
  [⟨Str.text "a", [Str.text "b", Str.text "x"], F64.zero, none⟩,
    ⟨Str.text "b", [Str.text "a"], F64.zero, some ⟨ZoneId.defaultPath⟩⟩]

theorem crossing_confluent :
    (crossing.map Arrival.id).Nodup ∧
      Same (crossing.foldl (@arrive SetWalk.sorted) DagIndex.new)
        (crossing.reverse.foldl (@arrive SetWalk.sorted) DagIndex.new) :=
  have hnodup : (crossing.map Arrival.id).Nodup := by decide +kernel
  ⟨hnodup, arrive_confluent _ _ (List.reverse_perm crossing).symm hnodup⟩

end ElaraMesh.Dag
