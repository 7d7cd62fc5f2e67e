import ElaraMesh.Dag.Confluence

/-!
# The indexes and a rebuild of them

The roots, the tips and the tips of each zone are kept up to date by every call, and may also be
rebuilt from the records and their edges.  The two agree as long as no record is added as a root
while a parent is linked to it.  That may happen: an external parent may be linked to a record that
is not there, as to one that has been evicted while it waited for that parent, and the record is
taken for a root when it arrives again.

## Main results

* `agrees_iff` — the indexes agree with a rebuild if they are exact.
* `agrees_throughout_iff` — they do throughout a run exactly if no call of it is stray.
-/

namespace ElaraMesh.Dag

open Record (Str ZoneId)

/-- The roots are the records without parents. -/
def RootsOn (here : Str → Prop) (s : DagIndex) : Prop :=
  ∀ x, x ∈ s.rootsIdx ↔ here x ∧ ∀ p, ¬ s.parents.Rel x p

/-- The tips are the records without children, in all and by zone. -/
structure TipsOn (here : Str → Prop) (s : DagIndex) : Prop where
  tips : ∀ x, x ∈ s.tipsIdx ↔ here x ∧ ∀ c, ¬ s.children.Rel x c
  zoneTips : ∀ z x, s.tipsPerZone.Rel z x ↔ x ∈ s.tipsIdx ∧ s.nodeZone.lookup x = some z
  tight : s.tipsPerZone.Tight

/-- The indexes are those that a rebuild computes. -/
def Agrees [SetWalk Str] (s : DagIndex) : Prop :=
  s.rootsIdx = s.rebuildIndices.rootsIdx ∧ s.tipsIdx = s.rebuildIndices.tipsIdx ∧
    ∀ z, s.tipsPerZone.lookup z = s.rebuildIndices.tipsPerZone.lookup z

/-- Only records of the index have children. -/
def ParentsThere (s : DagIndex) : Prop := ∀ p c, s.children.Rel p c → p ∈ s.nodes

variable {here here' : Str → Prop} {s s' : DagIndex}

/-! ### Tips -/

namespace TipsOn

/-- Only the tips, the children and the zones count. -/
theorem of_eq (h : TipsOn here s) (htips : s'.tipsIdx = s.tipsIdx)
    (hchildren : s'.children = s.children) (hzone : s'.nodeZone = s.nodeZone)
    (hper : s'.tipsPerZone = s.tipsPerZone) : TipsOn here s' where
  tips x := by rw [htips, hchildren]; exact h.tips x
  zoneTips z x := by rw [htips, hzone, hper]; exact h.zoneTips z x
  tight := hper ▸ h.tight

/-- A record is no tip any more, as it is gone or has a child. -/
theorem dropTip (h : TipsOn here s) (id : Str)
    (hhere : ∀ x, x ≠ id → (here' x ∧ (∀ c, ¬ s'.children.Rel x c) ↔
      here x ∧ ∀ c, ¬ s.children.Rel x c))
    (hid : ¬ (here' id ∧ ∀ c, ¬ s'.children.Rel id c)) (htips : s'.tipsIdx = s.tipsIdx)
    (hzone : s'.nodeZone = s.nodeZone) (hper : s'.tipsPerZone = s.tipsPerZone) :
    TipsOn here' (s'.dropTip id) where
  tips x := by
    refine Finset.mem_erase.trans ?_
    rw [htips, h.tips]
    by_cases hx : x = id
    · subst hx
      exact ⟨fun hmem => absurd rfl hmem.1, fun hmem => absurd hmem hid⟩
    · exact (and_iff_right hx).trans (hhere x hx).symm
  zoneTips z x := by
    refine (Represents.rel_tipsPerZoneRemove _ id z x).trans ?_
    change s'.tipsPerZone.Rel z x ∧ ¬ (s'.nodeZone.lookup id = some z ∧ x = id) ↔
      x ∈ s'.tipsIdx.erase id ∧ s'.nodeZone.lookup x = some z
    rw [hper, h.zoneTips, Finset.mem_erase, htips, hzone]
    constructor
    · rintro ⟨⟨htip, hz⟩, hne⟩
      exact ⟨⟨fun hx => hne ⟨hx ▸ hz, hx⟩, htip⟩, hz⟩
    · rintro ⟨⟨hne, htip⟩, hz⟩
      exact ⟨⟨htip, hz⟩, fun heq => hne heq.2⟩
  tight := Represents.tight_tipsPerZoneRemove (s := { s' with .. }) (hper ▸ h.tight) id

/-- A record without children is a new tip. -/
theorem addTip (h : TipsOn here s) (id : Str)
    (hhere : ∀ x, here' x ∧ (∀ c, ¬ s'.children.Rel x c) ↔
      x = id ∨ (here x ∧ ∀ c, ¬ s.children.Rel x c))
    (htips : s'.tipsIdx = s.tipsIdx) (hzone : s'.nodeZone = s.nodeZone)
    (hper : s'.tipsPerZone = s.tipsPerZone) : TipsOn here' (s'.addTip id) where
  tips x := by
    refine Finset.mem_insert.trans ?_
    rw [htips, h.tips]
    exact (hhere x).symm
  zoneTips z x := by
    refine (Represents.rel_tipsPerZoneInsert _ id z x).trans ?_
    change (s'.nodeZone.lookup id = some z ∧ x = id) ∨ s'.tipsPerZone.Rel z x ↔
      x ∈ Insert.insert id s'.tipsIdx ∧ s'.nodeZone.lookup x = some z
    rw [hper, h.zoneTips, Finset.mem_insert, htips, hzone]
    constructor
    · rintro (⟨hz, rfl⟩ | ⟨htip, hz⟩)
      · exact ⟨.inl rfl, hz⟩
      · exact ⟨.inr htip, hz⟩
    · rintro ⟨rfl | htip, hz⟩
      · exact .inl ⟨hz, rfl⟩
      · exact .inr ⟨htip, hz⟩
  tight := Represents.tight_tipsPerZoneInsert (s := { s' with .. }) (hper ▸ h.tight) id

theorem wire (h : TipsOn here s) (p c : Str) : TipsOn here (s.wire p c) := by
  refine h.dropTip p (fun x hx => ?_) ?_ rfl rfl rfl
  · refine and_congr_right fun _ => forall_congr' fun c' => not_congr ?_
    refine Table.rel_link.trans (or_iff_right fun heq => hx heq.1)
  · rintro ⟨-, hnone⟩
    exact hnone c (Table.rel_link.mpr (.inl ⟨rfl, rfl⟩))

theorem setZone (h : TipsOn here s) {id : Str} (hid : ¬ here id) (zones : Table Str ZoneId)
    (hzones : ∀ x, x ≠ id → zones.lookup x = s.nodeZone.lookup x) :
    TipsOn here { s with nodeZone := zones } where
  tips := h.tips
  zoneTips z x := by
    refine (h.zoneTips z x).trans (and_congr_right fun htip => ?_)
    have hx : x ≠ id := fun hx => hid (hx ▸ ((h.tips x).mp htip).1)
    rw [← hzones x hx]
  tight := h.tight

theorem eraseChildren (h : TipsOn here s) {id : Str} (hid : ¬ here id) :
    TipsOn here { s with children := s.children.erase id } where
  tips x := by
    refine (h.tips x).trans (and_congr_right fun hx => forall_congr' fun c => not_congr ?_)
    have hne : x ≠ id := fun heq => hid (heq ▸ hx)
    exact (Table.rel_erase.trans (and_iff_right hne)).symm
  zoneTips := h.zoneTips
  tight := h.tight

/-- A record that loses its last child is a tip again. -/
theorem forgetChild (h : TipsOn (· ∈ s.nodes) s) (id pid : Str) :
    TipsOn (· ∈ s.nodes) (DagIndex.forgetChild id s pid) := by
  unfold DagIndex.forgetChild
  split
  · exact h
  next children hlookup =>
  have hrel : ∀ x c, Table.Rel (s.children.insert pid (children.erase id)) x c ↔
      if x = pid then c ∈ children.erase id else s.children.Rel x c := fun x c => Table.rel_insert
  dsimp only
  split
  · next hlast =>
    refine h.addTip pid (fun x => ?_) rfl rfl rfl
    change x ∈ s.nodes ∧ (∀ c, ¬ Table.Rel (s.children.insert pid (children.erase id)) x c) ↔ _
    by_cases hx : x = pid
    · subst hx
      obtain ⟨hnone, hmem⟩ := hlast
      refine iff_of_true ⟨hmem, fun c hc => ?_⟩ (.inl rfl)
      rw [hrel, if_pos rfl, hnone] at hc
      exact Finset.notMem_empty c hc
    · simp [hrel, hx]
  · next hmore =>
    refine ⟨fun x => (h.tips x).trans (and_congr_right fun hmem => ?_), h.zoneTips, h.tight⟩
    change (∀ c, ¬ s.children.Rel x c) ↔
      ∀ c, ¬ Table.Rel (s.children.insert pid (children.erase id)) x c
    by_cases hx : x = pid
    · subst hx
      have hsome : children.erase id ≠ ∅ := fun hnone => hmore ⟨hnone, hmem⟩
      obtain ⟨c, hc⟩ := Finset.nonempty_iff_ne_empty.mpr hsome
      refine iff_of_false (fun hnone => hnone c ?_) fun hnone => hnone c ?_
      · exact (Table.rel_of_lookup hlookup c).mpr (Finset.mem_of_mem_erase hc)
      · exact (hrel x c).mpr ((if_pos rfl).symm ▸ hc)
    · simp [hrel, hx]

/-- A record in the index changes its zone. -/
theorem setNodeZone (h : TipsOn here s) (id : Str) (zone : ZoneId) :
    TipsOn here (s.setNodeZone id zone) := by
  have hlookup : ∀ x, AList.lookup x (s.nodeZone.insert id zone) =
      if x = id then some zone else s.nodeZone.lookup x := fun x =>
    Table.lookup_insert_eq s.nodeZone id x zone
  -- what is left when the record is taken out from under its old zone
  have hremove : ∀ z x, (s.tipsPerZoneRemove id).tipsPerZone.Rel z x ↔
      x ≠ id ∧ x ∈ s.tipsIdx ∧ s.nodeZone.lookup x = some z := by
    intro z x
    rw [Represents.rel_tipsPerZoneRemove, h.zoneTips]
    constructor
    · rintro ⟨⟨htip, hz⟩, hne⟩
      exact ⟨fun hx => hne ⟨hx ▸ hz, hx⟩, htip, hz⟩
    · rintro ⟨hne, htip, hz⟩
      exact ⟨⟨htip, hz⟩, fun heq => hne heq.2⟩
  have htight := Represents.tight_tipsPerZoneRemove h.tight id
  unfold DagIndex.setNodeZone
  split
  · exact h
  dsimp only
  split
  · next htip =>
    refine ⟨h.tips, fun z x => ?_, ?_⟩
    swap
    · refine Represents.tight_tipsPerZoneInsert ?_ id
      exact htight
    refine (Represents.rel_tipsPerZoneInsert _ id z x).trans ?_
    change (AList.lookup id (s.nodeZone.insert id zone) = some z ∧ x = id) ∨
      (s.tipsPerZoneRemove id).tipsPerZone.Rel z x ↔
      x ∈ s.tipsIdx ∧ AList.lookup x (s.nodeZone.insert id zone) = some z
    rw [hremove, hlookup, hlookup]
    by_cases hx : x = id
    · subst hx
      have hmem : x ∈ s.tipsIdx := htip
      simp [hmem]
    · simp [hx]
  · next htip =>
    refine ⟨h.tips, fun z x => (hremove z x).trans ?_, htight⟩
    change _ ↔ x ∈ s.tipsIdx ∧ AList.lookup x (s.nodeZone.insert id zone) = some z
    rw [hlookup]
    by_cases hx : x = id
    · subst hx
      have hmem : x ∉ s.tipsIdx := htip
      simp [hmem]
    · simp [hx]

end TipsOn

/-! ### Roots -/

namespace RootsOn

/-- Only the roots and the parents count. -/
theorem of_eq (h : RootsOn here s) (hroots : s'.rootsIdx = s.rootsIdx)
    (hparents : s'.parents = s.parents) : RootsOn here s' := by
  intro x
  rw [hroots, hparents]
  exact h x

/-- A record that is not there may be given parents. -/
theorem wire (h : RootsOn here s) {c : Str} (hc : ¬ here c) (p : Str) :
    RootsOn here (s.wire p c) := by
  intro x
  refine (h x).trans (and_congr_right fun hx => forall_congr' fun p' => not_congr ?_)
  have hne : x ≠ c := fun heq => hc (heq ▸ hx)
  exact (Table.rel_link.trans (or_iff_right fun heq => hne heq.1)).symm

/-- A record that is given a parent is no root. -/
theorem linkParent (h : RootsOn here s) (c p : Str) (hroots : s'.rootsIdx = s.rootsIdx.erase c)
    (hparents : s'.parents = s.parents.link c p) : RootsOn here s' := by
  intro x
  rw [hroots, hparents, Finset.mem_erase, h x]
  by_cases hx : x = c
  · subst hx
    refine iff_of_false (fun hmem => hmem.1 rfl) fun hmem => ?_
    exact hmem.2 p (Table.rel_link.mpr (.inl ⟨rfl, rfl⟩))
  · refine (and_iff_right hx).trans (and_congr_right fun _ => forall_congr' fun p' => not_congr ?_)
    exact (Table.rel_link.trans (or_iff_right fun heq => hx heq.1)).symm

/-- A record that loses its last parent is a root. -/
theorem forgetParent (h : RootsOn (· ∈ s.nodes) s) (id cid : Str) :
    RootsOn (· ∈ s.nodes) (DagIndex.forgetParent id s cid) := by
  unfold DagIndex.forgetParent
  split
  · exact h
  next parents hlookup =>
  have hrel : ∀ x p, Table.Rel (s.parents.insert cid (parents.erase id)) x p ↔
      if x = cid then p ∈ parents.erase id else s.parents.Rel x p := fun x p => Table.rel_insert
  dsimp only
  split
  · next hlast =>
    intro x
    change x ∈ Insert.insert cid s.rootsIdx ↔
      x ∈ s.nodes ∧ ∀ p, ¬ Table.Rel (s.parents.insert cid (parents.erase id)) x p
    rw [Finset.mem_insert, h x]
    by_cases hx : x = cid
    · subst hx
      obtain ⟨hnone, hmem⟩ := hlast
      refine iff_of_true (.inl rfl) ⟨hmem, fun p hp => ?_⟩
      rw [hrel, if_pos rfl, hnone] at hp
      exact Finset.notMem_empty p hp
    · simp [hrel, hx]
  · next hmore =>
    intro x
    refine (h x).trans (and_congr_right fun hmem => ?_)
    change (∀ p, ¬ s.parents.Rel x p) ↔
      ∀ p, ¬ Table.Rel (s.parents.insert cid (parents.erase id)) x p
    by_cases hx : x = cid
    · subst hx
      have hsome : parents.erase id ≠ ∅ := fun hnone => hmore ⟨hnone, hmem⟩
      obtain ⟨p, hp⟩ := Finset.nonempty_iff_ne_empty.mpr hsome
      refine iff_of_false (fun hnone => hnone p ?_) fun hnone => hnone p ?_
      · exact (Table.rel_of_lookup hlookup p).mpr (Finset.mem_of_mem_erase hp)
      · exact (hrel x p).mpr ((if_pos rfl).symm ▸ hp)
    · simp [hrel, hx]

end RootsOn

/-! ### A rebuild -/

/-- The indexes are those that the edges give. -/
structure Exact (s : DagIndex) : Prop where
  roots : RootsOn (· ∈ s.nodes) s
  tips : TipsOn (· ∈ s.nodes) s

/-- The records, their edges and their zones are the same. -/
structure SameGraph (s s' : DagIndex) : Prop where
  nodes : s'.nodes = s.nodes
  parents : s'.parents = s.parents
  children : s'.children = s.children
  nodeZone : s'.nodeZone = s.nodeZone

theorem getD_eq_empty_iff {t : Table Str (Finset Str)} {k : Str} :
    t.getD k ∅ = ∅ ↔ ∀ a, ¬ t.Rel k a :=
  Finset.eq_empty_iff_forall_notMem

theorem rootsOn_rebuildOne (h : RootsOn here s) (id : Str) :
    RootsOn (fun x => x = id ∨ here x) (s.rebuildOne id) := by
  have hroots : (s.rebuildOne id).rootsIdx =
      if s.parents.getD id ∅ = ∅ then Insert.insert id s.rootsIdx else s.rootsIdx := by
    unfold DagIndex.rebuildOne
    dsimp only
    split <;> split <;> rfl
  have hparents : (s.rebuildOne id).parents = s.parents := by
    unfold DagIndex.rebuildOne
    dsimp only
    split <;> split <;> rfl
  intro x
  rw [hroots, hparents]
  change _ ↔ (x = id ∨ here x) ∧ ∀ p, ¬ s.parents.Rel x p
  by_cases hx : x = id
  · subst hx
    split
    · next hnone => simp [getD_eq_empty_iff.mp hnone]
    · next hsome =>
      rw [getD_eq_empty_iff] at hsome
      exact iff_of_false (fun hmem => hsome ((h x).mp hmem).2) fun hmem => hsome hmem.2
  · split
    · rw [Finset.mem_insert, or_iff_right hx, h x, or_iff_right hx]
    · rw [h x, or_iff_right hx]

theorem tipsOn_rebuildOne (h : TipsOn here s) (id : Str) :
    TipsOn (fun x => x = id ∨ here x) (s.rebuildOne id) := by
  unfold DagIndex.rebuildOne
  generalize hs : (if s.parents.getD id ∅ = ∅ then
    { s with rootsIdx := Insert.insert id s.rootsIdx } else s) = s₁
  have hsame : s₁.tipsIdx = s.tipsIdx ∧ s₁.children = s.children ∧ s₁.nodeZone = s.nodeZone ∧
      s₁.tipsPerZone = s.tipsPerZone := by
    subst hs
    split <;> exact ⟨rfl, rfl, rfl, rfl⟩
  obtain ⟨htips, hchildren, hzone, hper⟩ := hsame
  dsimp only
  split
  · next hnone =>
    rw [hchildren, getD_eq_empty_iff] at hnone
    refine h.addTip id (fun x => ?_) htips hzone hper
    rw [hchildren]
    by_cases hx : x = id
    · subst hx
      simp [hnone]
    · simp [hx]
  · next hsome =>
    rw [hchildren, getD_eq_empty_iff] at hsome
    have h₁ := h.of_eq htips hchildren hzone hper
    refine ⟨fun x => (h₁.tips x).trans ?_, h₁.zoneTips, h₁.tight⟩
    rw [hchildren]
    by_cases hx : x = id
    · subst hx
      exact iff_of_false (fun hmem => hsome hmem.2) fun hmem => hsome hmem.2
    · simp [hx]

theorem sameGraph_rebuildOne (s : DagIndex) (id : Str) : SameGraph s (s.rebuildOne id) := by
  unfold DagIndex.rebuildOne
  dsimp only
  split <;> split <;> exact ⟨rfl, rfl, rfl, rfl⟩

/-- Going through some records gives the indexes of these. -/
theorem foldl_rebuildOne (ids : List Str) (hroots : RootsOn here s) (htips : TipsOn here s) :
    RootsOn (fun x => x ∈ ids ∨ here x) (ids.foldl DagIndex.rebuildOne s) ∧
      TipsOn (fun x => x ∈ ids ∨ here x) (ids.foldl DagIndex.rebuildOne s) ∧
      SameGraph s (ids.foldl DagIndex.rebuildOne s) := by
  induction ids generalizing s here with
  | nil =>
    have hhere : (fun x => x ∈ ([] : List Str) ∨ here x) = here := by simp
    rw [hhere]
    exact ⟨hroots, htips, rfl, rfl, rfl, rfl⟩
  | cons id ids ih =>
    obtain ⟨hr, ht, hsame⟩ := ih (rootsOn_rebuildOne hroots id) (tipsOn_rebuildOne htips id)
    have hhere : (fun x => x ∈ id :: ids ∨ here x) =
        fun x => x ∈ ids ∨ x = id ∨ here x := by
      funext x
      simp only [List.mem_cons]
      exact propext (by tauto)
    have hone := sameGraph_rebuildOne s id
    rw [hhere]
    exact ⟨hr, ht, hsame.nodes.trans hone.nodes, hsame.parents.trans hone.parents,
      hsame.children.trans hone.children, hsame.nodeZone.trans hone.nodeZone⟩

theorem exact_rebuildIndices [SetWalk Str] (s : DagIndex) :
    Exact s.rebuildIndices ∧ SameGraph s s.rebuildIndices := by
  have hroots : RootsOn (fun _ => False) { s with rootsIdx := ∅, tipsIdx := ∅, tipsPerZone := ∅ } :=
    fun x => by simp
  have htips : TipsOn (fun _ => False) { s with rootsIdx := ∅, tipsIdx := ∅, tipsPerZone := ∅ } :=
    ⟨fun x => by simp, fun z x => by simp, Table.tight_empty⟩
  obtain ⟨hr, ht, hsame⟩ := foldl_rebuildOne (SetWalk.walk s.nodes) hroots htips
  have hhere : (fun x => x ∈ SetWalk.walk s.nodes ∨ False) = fun x => x ∈ s.nodes := by
    funext x
    rw [or_false, SetWalk.mem_walk]
  rw [hhere] at hr ht
  have hnodes : s.rebuildIndices.nodes = s.nodes := hsame.nodes
  have hsame' : SameGraph s s.rebuildIndices :=
    ⟨hsame.nodes, hsame.parents, hsame.children, hsame.nodeZone⟩
  refine ⟨⟨?_, ?_⟩, hsame'⟩
  · rw [hnodes]
    exact hr
  · rw [hnodes]
    exact ht

/-- The indexes agree with a rebuild exactly if they are those that the edges give. -/
theorem agrees_iff [SetWalk Str] (s : DagIndex) : Agrees s ↔ Exact s := by
  obtain ⟨⟨hroots, htips⟩, hsame⟩ := exact_rebuildIndices s
  rw [hsame.nodes] at hroots htips
  constructor
  · rintro ⟨hr, ht, hz⟩
    have hrel : ∀ z x, s.tipsPerZone.Rel z x ↔ s.rebuildIndices.tipsPerZone.Rel z x := by
      intro z x
      unfold Table.Rel Table.getD
      rw [hz]
    refine ⟨fun x => ?_, fun x => ?_, fun z x => ?_, fun z => hz z ▸ htips.tight z⟩
    · rw [hr, hroots x, hsame.parents]
    · rw [ht, htips.tips x, hsame.children]
    · rw [hrel, htips.zoneTips, ht, hsame.nodeZone]
  · rintro ⟨hr, ht⟩
    have htipsIdx : s.tipsIdx = s.rebuildIndices.tipsIdx := by
      ext x
      rw [ht.tips x, htips.tips x, hsame.children]
    refine ⟨?_, htipsIdx, Table.lookup_eq_of_rel ht.tight htips.tight fun z x => ?_⟩
    · ext x
      rw [hr x, hroots x, hsame.parents]
    · rw [ht.zoneTips, htips.zoneTips, htipsIdx, hsame.nodeZone]

/-! ### What the calls keep -/

/-- The indexes are exact, and only records of the index have children. -/
structure Kept (s : DagIndex) : Prop where
  exact : Exact s
  there : ParentsThere s

/-- Only the graph and the indexes count. -/
theorem Kept.of_eq (h : Kept s) (hsame : SameGraph s s') (hroots : s'.rootsIdx = s.rootsIdx)
    (htips : s'.tipsIdx = s.tipsIdx) (hper : s'.tipsPerZone = s.tipsPerZone) : Kept s' := by
  refine ⟨⟨?_, ?_⟩, fun p c hc => ?_⟩
  · rw [hsame.nodes]
    exact h.exact.roots.of_eq hroots hsame.parents
  · rw [hsame.nodes]
    exact h.exact.tips.of_eq htips hsame.children hsame.nodeZone hper
  · rw [hsame.nodes]
    exact h.there p c (hsame.children ▸ hc)

theorem kept_new : Kept DagIndex.new where
  exact :=
    ⟨fun x => by simp [DagIndex.new], fun x => by simp [DagIndex.new],
      fun z x => by simp [DagIndex.new], Table.tight_empty⟩
  there p c hc := absurd hc (Table.rel_empty p c)

section Remove

/-- The children of a parent may only become fewer, and nothing but the tips follows. -/
theorem forgetChild_frame (id : Str) (s : DagIndex) (pid : Str) :
    (DagIndex.forgetChild id s pid).nodes = s.nodes ∧
      (DagIndex.forgetChild id s pid).parents = s.parents ∧
      (DagIndex.forgetChild id s pid).rootsIdx = s.rootsIdx ∧
      ∀ p c, (DagIndex.forgetChild id s pid).children.Rel p c → s.children.Rel p c := by
  unfold DagIndex.forgetChild
  split
  · exact ⟨rfl, rfl, rfl, fun _ _ hc => hc⟩
  next children hlookup =>
  have hsub : ∀ p c, Table.Rel (s.children.insert pid (children.erase id)) p c →
      s.children.Rel p c := by
    intro p c hc
    rw [Table.rel_insert] at hc
    split at hc
    · next hp =>
      rw [hp, Table.rel_of_lookup hlookup]
      exact Finset.mem_of_mem_erase hc
    · exact hc
  dsimp only
  split <;> exact ⟨rfl, rfl, rfl, hsub⟩

theorem forgetParent_frame (id : Str) (s : DagIndex) (cid : Str) :
    (DagIndex.forgetParent id s cid).nodes = s.nodes ∧
      (DagIndex.forgetParent id s cid).children = s.children ∧
      (DagIndex.forgetParent id s cid).tipsIdx = s.tipsIdx ∧
      (DagIndex.forgetParent id s cid).nodeZone = s.nodeZone ∧
      (DagIndex.forgetParent id s cid).tipsPerZone = s.tipsPerZone := by
  unfold DagIndex.forgetParent
  split
  · exact ⟨rfl, rfl, rfl, rfl, rfl⟩
  · dsimp only
    split <;> exact ⟨rfl, rfl, rfl, rfl, rfl⟩

theorem foldl_forgetChild (id : Str) (pids : List Str) (h : TipsOn (· ∈ s.nodes) s) :
    TipsOn (· ∈ s.nodes) (pids.foldl (DagIndex.forgetChild id) s) ∧
      (pids.foldl (DagIndex.forgetChild id) s).nodes = s.nodes ∧
      (pids.foldl (DagIndex.forgetChild id) s).parents = s.parents ∧
      (pids.foldl (DagIndex.forgetChild id) s).rootsIdx = s.rootsIdx ∧
      ∀ p c, (pids.foldl (DagIndex.forgetChild id) s).children.Rel p c → s.children.Rel p c := by
  induction pids generalizing s with
  | nil => exact ⟨h, rfl, rfl, rfl, fun _ _ hc => hc⟩
  | cons pid pids ih =>
    obtain ⟨hnodes, hparents, hroots, hsub⟩ := forgetChild_frame id s pid
    have hstep := h.forgetChild id pid
    rw [← hnodes] at hstep
    obtain ⟨htips, hn, hp, hr, hs⟩ := ih hstep
    rw [hnodes] at htips
    exact ⟨htips, hn.trans hnodes, hp.trans hparents, hr.trans hroots,
      fun p c hc => hsub p c (hs p c hc)⟩

theorem foldl_forgetParent (id : Str) (cids : List Str) (hroots : RootsOn (· ∈ s.nodes) s)
    (htips : TipsOn here s) :
    RootsOn (· ∈ s.nodes) (cids.foldl (DagIndex.forgetParent id) s) ∧
      TipsOn here (cids.foldl (DagIndex.forgetParent id) s) ∧
      (cids.foldl (DagIndex.forgetParent id) s).nodes = s.nodes ∧
      (cids.foldl (DagIndex.forgetParent id) s).children = s.children := by
  induction cids generalizing s with
  | nil => exact ⟨hroots, htips, rfl, rfl⟩
  | cons cid cids ih =>
    obtain ⟨hnodes, hchildren, htipsIdx, hzone, hper⟩ := forgetParent_frame id s cid
    have hstep := hroots.forgetParent id cid
    rw [← hnodes] at hstep
    obtain ⟨hr, ht, hn, hc⟩ := ih hstep (htips.of_eq htipsIdx hchildren hzone hper)
    rw [hnodes] at hr
    exact ⟨hr, ht, hn.trans hnodes, hc.trans hchildren⟩

/-- The index without a record, its zone and its parents; the edges to it are still there. -/
def withoutNode (s : DagIndex) (id : Str) : DagIndex :=
  { (DagIndex.dropTip { s with
      orphanEdges := s.orphanEdges.erase id
      nodes := s.nodes.erase id
      timestamps := s.timestamps.erase id
      rootsIdx := s.rootsIdx.erase id } id) with
    nodeZone := s.nodeZone.erase id
    parents := s.parents.erase id }

theorem tipsOn_withoutNode (h : TipsOn (· ∈ s.nodes) s) (id : Str) :
    TipsOn (· ∈ (withoutNode s id).nodes) (withoutNode s id) := by
  have hid : id ∉ s.nodes.erase id := Finset.notMem_erase id _
  have hdrop : TipsOn (· ∈ s.nodes.erase id) (DagIndex.dropTip { s with
      orphanEdges := s.orphanEdges.erase id
      nodes := s.nodes.erase id
      timestamps := s.timestamps.erase id
      rootsIdx := s.rootsIdx.erase id } id) := by
    refine h.dropTip id (fun x hx => ?_) (fun hmem => hid hmem.1) rfl rfl rfl
    exact and_congr_left' (Finset.mem_erase.trans (and_iff_right hx))
  have hzone := hdrop.setZone hid (s.nodeZone.erase id) fun x hx => by
    rw [Table.lookup_erase_eq, if_neg hx]
    rfl
  exact hzone.of_eq rfl rfl rfl rfl

theorem rootsOn_withoutNode (h : RootsOn (· ∈ s.nodes) s) (id : Str) :
    RootsOn (· ∈ (withoutNode s id).nodes) (withoutNode s id) := by
  intro x
  change x ∈ s.rootsIdx.erase id ↔
    x ∈ s.nodes.erase id ∧ ∀ p, ¬ Table.Rel (s.parents.erase id) x p
  rw [Finset.mem_erase, Finset.mem_erase, h x]
  by_cases hx : x = id
  · simp [hx]
  · simp [hx, Table.rel_erase]

theorem remove_eq [SetWalk Str] {id : Str} (hid : id ∈ s.nodes) :
    s.remove id =
      let left := (SetWalk.walk (s.parents.getD id ∅)).foldl (DagIndex.forgetChild id)
        (withoutNode s id)
      (SetWalk.walk (left.children.getD id ∅)).foldl (DagIndex.forgetParent id)
        { left with children := left.children.erase id } :=
  if_neg (not_not_intro hid)

/-- A record that is removed leaves the indexes exact. -/
theorem Kept.remove [SetWalk Str] (h : Kept s) (id : Str) : Kept (s.remove id) := by
  by_cases hid : id ∈ s.nodes
  swap
  · have hsame : s.remove id = { s with orphanEdges := s.orphanEdges.erase id } := if_pos hid
    rw [hsame]
    exact h.of_eq ⟨rfl, rfl, rfl, rfl⟩ rfl rfl rfl
  rw [remove_eq hid]
  dsimp only
  obtain ⟨htips, hnodes, hparents, hroots, hsub⟩ := foldl_forgetChild id
    (SetWalk.walk (s.parents.getD id ∅)) (tipsOn_withoutNode h.exact.tips id)
  have hrootsOn := (rootsOn_withoutNode h.exact.roots id).of_eq hroots hparents
  generalize (SetWalk.walk (s.parents.getD id ∅)).foldl (DagIndex.forgetChild id)
    (withoutNode s id) = left at htips hnodes hsub hrootsOn ⊢
  rw [← hnodes] at htips hrootsOn
  have hgone : id ∉ left.nodes := hnodes ▸ Finset.notMem_erase id _
  obtain ⟨hr, ht, hn, hc⟩ := foldl_forgetParent (s := { left with children := left.children.erase id })
    id (SetWalk.walk (left.children.getD id ∅)) hrootsOn (htips.eraseChildren hgone)
  generalize (SetWalk.walk (left.children.getD id ∅)).foldl (DagIndex.forgetParent id)
    { left with children := left.children.erase id } = done at hr ht hn hc ⊢
  have hn' : done.nodes = left.nodes := hn
  refine ⟨⟨?_, ?_⟩, fun p c hrel => ?_⟩
  · rw [hn']
    exact hr
  · rw [hn']
    exact ht
  · rw [hc] at hrel
    obtain ⟨hne, hrel⟩ := Table.rel_erase.mp hrel
    rw [hn', hnodes]
    exact Finset.mem_erase.mpr ⟨hne, h.there p c (hsub p c hrel)⟩

theorem Kept.evict [SetWalk Str] (h : Kept s) (ids : List Str) : Kept (s.evict ids).1 :=
  List.foldlRecOn ids _ h fun _ hs id _ =>
    (hs.remove id).of_eq ⟨rfl, rfl, rfl, rfl⟩ rfl rfl rfl

end Remove

/-! ### Records that wait for a parent -/

theorem Kept.wireWaiting (h : Kept s) {pid : Str} (hpid : pid ∈ s.nodes) (cid : Str) (n : ℕ) :
    Kept (DagIndex.wireWaiting pid (s, n) cid).1 ∧
      (DagIndex.wireWaiting pid (s, n) cid).1.nodes = s.nodes := by
  unfold DagIndex.wireWaiting
  dsimp only
  split
  swap
  · exact ⟨h, rfl⟩
  refine ⟨⟨⟨h.exact.roots.linkParent cid pid rfl rfl, ?_⟩, fun p c hc => ?_⟩, rfl⟩
  · exact (h.exact.tips.wire pid cid).of_eq rfl rfl rfl rfl
  · rcases Table.rel_link.mp hc with ⟨rfl, -⟩ | hc
    · exact hpid
    · exact h.there p c hc

theorem Kept.relinkSingleParent [SetWalk Str] (h : Kept s) {pid : Str} (hpid : pid ∈ s.nodes) :
    Kept (s.relinkSingleParent pid).1 ∧ (s.relinkSingleParent pid).1.nodes = s.nodes := by
  unfold DagIndex.relinkSingleParent
  split
  swap
  · exact ⟨h, rfl⟩
  next children _ =>
  -- every child that is wired leaves the records as they are
  refine List.foldlRecOn (SetWalk.walk children) _
    (motive := fun acc : DagIndex × ℕ => Kept acc.1 ∧ acc.1.nodes = s.nodes)
    ⟨h.of_eq ⟨rfl, rfl, rfl, rfl⟩ rfl rfl rfl, rfl⟩ ?_
  rintro ⟨s', n⟩ ⟨hs, hnodes⟩ cid -
  obtain ⟨hkept, hsame⟩ := hs.wireWaiting (hnodes.symm ▸ hpid : pid ∈ s'.nodes) cid n
  exact ⟨hkept, hsame.trans hnodes⟩

theorem Kept.reindexOrphans [SetWalk Str] [Iteration] (h : Kept s) : Kept s.reindexOrphans.1 := by
  have hrun : Kept s.reindexOrphans.1 ∧ s.reindexOrphans.1.nodes = s.nodes := by
    unfold DagIndex.reindexOrphans
    refine List.foldlRecOn _ _ (motive := fun acc : DagIndex × ℕ =>
      Kept acc.1 ∧ acc.1.nodes = s.nodes) ⟨h, rfl⟩ ?_
    rintro ⟨s', n⟩ ⟨hs, hnodes⟩ pid hpid
    obtain ⟨e, he, rfl⟩ := List.mem_map.mp hpid
    have hmem : e.1 ∈ s.nodes := of_decide_eq_true (List.mem_filter.mp he).2
    obtain ⟨hkept, hsame⟩ := hs.relinkSingleParent (hnodes.symm ▸ hmem : e.1 ∈ s'.nodes)
    exact ⟨hkept, hsame.trans hnodes⟩
  exact hrun.1

theorem Kept.linkExternalParent (h : Kept s) (childId parentId : Str) :
    Kept (s.linkExternalParent childId parentId) where
  exact := ⟨h.exact.roots.linkParent childId parentId rfl rfl, h.exact.tips.of_eq rfl rfl rfl rfl⟩
  there := h.there

theorem Kept.setNodeZone (h : Kept s) (id : Str) (zone : ZoneId) : Kept (s.setNodeZone id zone) := by
  have hframe : (s.setNodeZone id zone).nodes = s.nodes ∧
      (s.setNodeZone id zone).parents = s.parents ∧
      (s.setNodeZone id zone).rootsIdx = s.rootsIdx ∧
      (s.setNodeZone id zone).children = s.children := by
    unfold DagIndex.setNodeZone
    split
    · exact ⟨rfl, rfl, rfl, rfl⟩
    · dsimp only
      split <;> exact ⟨rfl, rfl, rfl, rfl⟩
  obtain ⟨hnodes, hparents, hroots, hchildren⟩ := hframe
  refine ⟨⟨?_, ?_⟩, fun p c hc => ?_⟩
  · rw [hnodes]
    exact h.exact.roots.of_eq hroots hparents
  · rw [hnodes]
    exact h.exact.tips.setNodeZone id zone
  · rw [hnodes]
    exact h.there p c (hchildren ▸ hc)

/-! ### New records -/

variable {id : Str}

/-- The parents of a record that is not there yet. -/
theorem foldl_wireOrWait (h : Kept s) (hid : id ∉ s.nodes) (parentIds : List Str) :
    ∀ n, Kept (parentIds.foldl (DagIndex.wireOrWait id) (s, n)).1 ∧
      (parentIds.foldl (DagIndex.wireOrWait id) (s, n)).1.nodes = s.nodes ∧
      (parentIds.foldl (DagIndex.wireOrWait id) (s, n)).2 = n + parentIds.countP (· ∉ s.nodes) ∧
      ∀ p, (parentIds.foldl (DagIndex.wireOrWait id) (s, n)).1.parents.Rel id p ↔
        s.parents.Rel id p ∨ (p ∈ parentIds ∧ p ∈ s.nodes) := by
  induction parentIds generalizing s with
  | nil => exact fun n => ⟨h, rfl, rfl, fun p => by simp⟩
  | cons pid parentIds ih =>
    intro n
    rw [List.foldl_cons, List.countP_cons]
    by_cases hpid : pid ∈ s.nodes
    · have hstep : DagIndex.wireOrWait id (s, n) pid = (s.wire pid id, n) := if_pos hpid
      have hwired : Kept (s.wire pid id) := by
        refine ⟨⟨h.exact.roots.wire hid pid, h.exact.tips.wire pid id⟩, fun p c hc => ?_⟩
        rcases Table.rel_link.mp hc with ⟨rfl, -⟩ | hc
        · exact hpid
        · exact h.there p c hc
      obtain ⟨hkept, hnodes, hcount, hrel⟩ := ih hwired hid n
      rw [hstep, if_neg (by simpa using hpid)]
      refine ⟨hkept, hnodes, hcount, fun p => (hrel p).trans ?_⟩
      have hlink : (s.wire pid id).parents.Rel id p ↔ p = pid ∨ s.parents.Rel id p :=
        Table.rel_link.trans (or_congr_left (and_iff_right rfl))
      have hsame : p ∈ (s.wire pid id).nodes ↔ p ∈ s.nodes := Iff.rfl
      rw [hlink, hsame, List.mem_cons]
      by_cases hp : p = pid
      · simp [hp, hpid]
      · simp [hp]
    · have hstep : DagIndex.wireOrWait id (s, n) pid =
          ({ s with orphanEdges := s.orphanEdges.link pid id }, n + 1) := if_neg hpid
      have hwaits : Kept { s with orphanEdges := s.orphanEdges.link pid id } :=
        h.of_eq ⟨rfl, rfl, rfl, rfl⟩ rfl rfl rfl
      obtain ⟨hkept, hnodes, hcount, hrel⟩ := ih hwaits hid (n + 1)
      rw [hstep, if_pos (by simpa using hpid)]
      refine ⟨hkept, hnodes, hcount.trans (Nat.add_right_comm n 1 _), fun p => (hrel p).trans ?_⟩
      refine or_congr_right (and_congr_left fun hp => ?_)
      have hne : p ≠ pid := fun heq => hpid (heq ▸ hp)
      simp [hne]

/-- A record would be a root by the parents it names, but has a parent by the edges. -/
def Strays (s : DagIndex) (id : Str) (parentIds : List Str) : Prop :=
  id ∉ s.nodes ∧ (∀ p ∈ parentIds, p ∉ s.nodes) ∧ ∃ p, s.parents.Rel id p

/-- A new record without children, not yet among the roots. -/
theorem addNode_kept (h : Kept s) (hid : id ∉ s.nodes) (timestamp : F64) :
    TipsOn (· ∈ (s.addNode id timestamp).nodes) (s.addNode id timestamp) ∧
      ParentsThere (s.addNode id timestamp) := by
  have hnone : ∀ c, ¬ s.children.Rel id c := fun c hc => hid (h.there id c hc)
  refine ⟨?_, fun p c hc => Finset.mem_insert_of_mem (h.there p c hc)⟩
  refine h.exact.tips.addTip id (fun x => ?_) rfl rfl rfl
  change x ∈ Insert.insert id s.nodes ∧ (∀ c, ¬ s.children.Rel x c) ↔ _
  rw [Finset.mem_insert]
  by_cases hx : x = id
  · subst hx
    simp [hnone]
  · simp [hx]

/-- The roots are exact with a new record among them if it has no parents. -/
theorem rootsOn_addRoot {t : DagIndex} (h : RootsOn (· ∈ s.nodes) s)
    (hroots : t.rootsIdx = Insert.insert id s.rootsIdx) (hparents : t.parents = s.parents) :
    RootsOn (· ∈ Insert.insert id s.nodes) t ↔ ∀ p, ¬ s.parents.Rel id p := by
  refine ⟨fun hr => ?_, fun hnone x => ?_⟩
  · have hmem := (hr id).mp (hroots ▸ Finset.mem_insert_self id _)
    exact hparents ▸ hmem.2
  · change _ ↔ x ∈ Insert.insert id s.nodes ∧ _
    rw [hroots, hparents, Finset.mem_insert, Finset.mem_insert, h x]
    by_cases hx : x = id
    · subst hx
      simp [hnone]
    · simp [hx]

/-- They are exact without it if it has some. -/
theorem rootsOn_of_parent (h : RootsOn (· ∈ s.nodes) s) {p : Str} (hid : id ∉ s.nodes)
    (hp : s.parents.Rel id p) (hroots : s'.rootsIdx = s.rootsIdx)
    (hparents : s'.parents = s.parents) : RootsOn (· ∈ Insert.insert id s.nodes) s' := by
  intro x
  change _ ↔ x ∈ Insert.insert id s.nodes ∧ _
  rw [hroots, hparents, Finset.mem_insert, h x]
  by_cases hx : x = id
  · subst hx
    exact iff_of_false (fun hmem => hid hmem.1) fun hmem => hmem.2 p hp
  · rw [or_iff_right hx]

/-- A new record leaves the tips exact, and the roots unless it strays. -/
theorem insertTolerant_kept (h : Kept s) (id : Str) (parentIds : List Str) (timestamp : F64) :
    ParentsThere (s.insertTolerant id parentIds timestamp).1 ∧
      (Exact (s.insertTolerant id parentIds timestamp).1 ↔ ¬ Strays s id parentIds) := by
  by_cases hid : id ∈ s.nodes
  · have hsame : s.insertTolerant id parentIds timestamp = (s, 0) := if_pos hid
    rw [hsame]
    exact ⟨h.there, iff_of_true h.exact fun hstray => hstray.1 hid⟩
  obtain ⟨hkept, hnodes, hcount, hrel⟩ := foldl_wireOrWait h hid parentIds 0
  have hroot : (parentIds = [] ∨
      (parentIds.foldl (DagIndex.wireOrWait id) (s, 0)).2 = parentIds.length) ↔
      ∀ p ∈ parentIds, p ∉ s.nodes := by
    rw [hcount, Nat.zero_add, List.countP_eq_length]
    simp only [decide_eq_true_eq]
    exact or_iff_right_of_imp fun hnil p hp => absurd (hnil ▸ hp) List.not_mem_nil
  unfold DagIndex.insertTolerant
  rw [if_neg hid]
  dsimp only
  generalize (parentIds.foldl (DagIndex.wireOrWait id) (s, 0)).1 = wired at hkept hnodes hrel ⊢
  generalize (parentIds.foldl (DagIndex.wireOrWait id) (s, 0)).2 = missing at hroot ⊢
  have hnew : id ∉ wired.nodes := hnodes ▸ hid
  obtain ⟨htips, hthere⟩ := addNode_kept hkept hnew timestamp
  split
  · -- a root by the parents it names
    next hmissing =>
    rw [hroot] at hmissing
    have hparents : (∀ p, ¬ wired.parents.Rel id p) ↔ ∀ p, ¬ s.parents.Rel id p := by
      refine forall_congr' fun p => not_congr ((hrel p).trans (or_iff_left fun hp => ?_))
      exact hmissing p hp.1 hp.2
    refine ⟨hthere, ?_⟩
    have hrootsOn := rootsOn_addRoot (t := { wired.addNode id timestamp with
      rootsIdx := Insert.insert id (wired.addNode id timestamp).rootsIdx })
      hkept.exact.roots rfl rfl
    constructor
    · rintro hexact ⟨-, -, p, hp⟩
      exact hparents.mp (hrootsOn.mp hexact.roots) p hp
    · intro hstray
      have hnone : ∀ p, ¬ s.parents.Rel id p := fun p hp => hstray ⟨hid, hmissing, p, hp⟩
      exact ⟨hrootsOn.mpr (hparents.mpr hnone), htips.of_eq rfl rfl rfl rfl⟩
  · -- one of the parents it names is there
    next hmissing =>
    rw [hroot] at hmissing
    push Not at hmissing
    obtain ⟨p, hp, hmem⟩ := hmissing
    refine ⟨hthere, iff_of_true ⟨?_, htips⟩ fun hstray => hstray.2.1 p hp hmem⟩
    exact rootsOn_of_parent hkept.exact.roots hnew ((hrel p).mpr (.inr ⟨hp, hmem⟩)) rfl rfl

theorem foldl_wireOrWait_of_present {parentIds : List Str} (hall : ∀ p ∈ parentIds, p ∈ s.nodes) :
    parentIds.foldl (DagIndex.wireOrWait id) (s, 0) =
      (parentIds.foldl (fun s pid => s.wire pid id) s, 0) := by
  induction parentIds generalizing s with
  | nil => rfl
  | cons pid parentIds ih =>
    have hstep : DagIndex.wireOrWait id (s, 0) pid = (s.wire pid id, 0) :=
      if_pos (hall pid List.mem_cons_self)
    rw [List.foldl_cons, List.foldl_cons, hstep]
    exact ih fun p hp => hall p (List.mem_cons_of_mem pid hp)

/-- A strict insert is a tolerant one of a record whose parents are all there. -/
theorem insert_eq_insertTolerant {parentIds : List Str} {timestamp : F64}
    (h : s.insert id parentIds timestamp = .ok s') :
    (∀ p ∈ parentIds, p ∈ s.nodes) ∧ s' = (s.insertTolerant id parentIds timestamp).1 := by
  unfold DagIndex.insert at h
  split at h
  · cases h
  next hid =>
  split at h
  · cases h
  next hmissing =>
  have hall : ∀ p ∈ parentIds, p ∈ s.nodes := by
    intro p hp
    simpa using List.find?_eq_none.mp hmissing p hp
  refine ⟨hall, ?_⟩
  unfold DagIndex.insertTolerant
  rw [if_neg hid, foldl_wireOrWait_of_present hall]
  have hroot : (parentIds = [] ∨ 0 = parentIds.length) ↔ parentIds = [] :=
    or_iff_left_of_imp fun hlength => List.length_eq_zero_iff.mp hlength.symm
  dsimp only
  rw [if_congr hroot rfl rfl]
  exact (Except.ok.inj h).symm

/-- A call adds a record as a root that has a parent. -/
def Stray (s : DagIndex) : Call → Prop
  | .insert id parentIds _ => parentIds = [] ∧ Strays s id parentIds
  | .insertWithZone id parentIds _ _ => parentIds = [] ∧ Strays s id parentIds
  | .insertTolerant id parentIds _ => Strays s id parentIds
  | .insertTolerantWithZone id parentIds _ _ => Strays s id parentIds
  | _ => False

theorem insert_kept (h : Kept s) (id : Str) (parentIds : List Str) (timestamp : F64) :
    ParentsThere ((s.insert id parentIds timestamp).toOption.getD s) ∧
      (Exact ((s.insert id parentIds timestamp).toOption.getD s) ↔
        ¬ (parentIds = [] ∧ Strays s id parentIds)) := by
  cases hs : s.insert id parentIds timestamp with
  | ok s' =>
    obtain ⟨hall, heq⟩ := insert_eq_insertTolerant hs
    obtain ⟨hthere, hexact⟩ := insertTolerant_kept h id parentIds timestamp
    change ParentsThere s' ∧ (Exact s' ↔ _)
    rw [heq]
    refine ⟨hthere, hexact.trans (not_congr ⟨fun hstray => ⟨?_, hstray⟩, fun hstray => hstray.2⟩)⟩
    exact List.eq_nil_iff_forall_not_mem.mpr fun p hp => hstray.2.1 p hp (hall p hp)
  | error e =>
    refine ⟨h.there, iff_of_true h.exact ?_⟩
    rintro ⟨rfl, hstray⟩
    unfold DagIndex.insert at hs
    rw [if_neg hstray.1] at hs
    cases hs

/-- The zone of a record may be noted before the record is added. -/
theorem Kept.withZone (h : Kept s) (hid : id ∉ s.nodes) (zone : ZoneId) :
    Kept { s with nodeZone := s.nodeZone.insert id zone } where
  exact := by
    refine ⟨h.exact.roots, h.exact.tips.setZone hid _ fun x hx => ?_⟩
    rw [Table.lookup_insert_eq, if_neg hx]
  there := h.there

theorem insertWithZone_kept (h : Kept s) (id : Str) (parentIds : List Str) (timestamp : F64)
    (zone : ZoneId) :
    ParentsThere ((s.insertWithZone id parentIds timestamp zone).toOption.getD s) ∧
      (Exact ((s.insertWithZone id parentIds timestamp zone).toOption.getD s) ↔
        ¬ (parentIds = [] ∧ Strays s id parentIds)) := by
  unfold DagIndex.insertWithZone
  split
  · next hid => exact ⟨h.there, iff_of_true h.exact fun hstray => hstray.2.1 hid⟩
  next hid =>
  split
  · next pid hmissing =>
    refine ⟨h.there, iff_of_true h.exact ?_⟩
    rintro ⟨rfl, -⟩
    cases hmissing
  next hmissing =>
  have hzoned := insert_kept (h.withZone hid zone) id parentIds timestamp
  -- the checks are the same, so the insert succeeds
  have hok : ∃ s', DagIndex.insert { s with nodeZone := s.nodeZone.insert id zone } id parentIds
      timestamp = .ok s' := by
    have hmissing' : DagIndex.missingParent? { s with nodeZone := s.nodeZone.insert id zone }
        parentIds = none := hmissing
    unfold DagIndex.insert
    rw [if_neg hid, hmissing']
    exact ⟨_, rfl⟩
  obtain ⟨s', hs⟩ := hok
  rw [hs] at hzoned ⊢
  exact hzoned

theorem Kept.dropGroups (h : Kept s) (target : ℕ) (groups : List (Str × Finset Str)) (n : ℕ) :
    Kept (DagIndex.dropGroups target groups (s, n)).1 := by
  induction groups generalizing s n with
  | nil => exact h
  | cons group groups ih =>
    unfold DagIndex.dropGroups
    split
    · exact h
    · refine ih ?_ _
      exact h.of_eq ⟨rfl, rfl, rfl, rfl⟩ rfl rfl rfl

section Calls

variable [SetWalk Str] [Iteration]

/-- A call leaves the indexes exact unless it is stray. -/
theorem step_kept (h : Kept s) (call : Call)
    (hrelink : ∀ p, call = .relinkSingleParent p → p ∈ s.nodes) :
    ParentsThere (step s call) ∧ (Exact (step s call) ↔ ¬ Stray s call) := by
  have hquiet : Kept (step s call) → ¬ Stray s call →
      ParentsThere (step s call) ∧ (Exact (step s call) ↔ ¬ Stray s call) :=
    fun hkept hstray => ⟨hkept.there, iff_of_true hkept.exact hstray⟩
  cases call with
  | insert id parentIds timestamp => exact insert_kept h id parentIds timestamp
  | insertTolerant id parentIds timestamp => exact insertTolerant_kept h id parentIds timestamp
  | insertWithZone id parentIds timestamp zone =>
    exact insertWithZone_kept h id parentIds timestamp zone
  | insertTolerantWithZone id parentIds timestamp zone =>
    by_cases hid : id ∈ s.nodes
    · have hsame : step s (.insertTolerantWithZone id parentIds timestamp zone) = s :=
        congrArg Prod.fst (if_pos hid)
      refine hquiet ?_ fun hstray => hstray.1 hid
      rw [hsame]
      exact h
    · have hstep : step s (.insertTolerantWithZone id parentIds timestamp zone) =
          (DagIndex.insertTolerant { s with nodeZone := s.nodeZone.insert id zone } id parentIds
            timestamp).1 := congrArg Prod.fst (if_neg hid)
      rw [hstep]
      exact insertTolerant_kept (h.withZone hid zone) id parentIds timestamp
  | rebuildIndices =>
    obtain ⟨hexact, hsame⟩ := exact_rebuildIndices s
    refine hquiet ⟨hexact, fun p c hc => ?_⟩ not_false
    exact hsame.nodes ▸ h.there p c (hsame.children ▸ hc)
  | markFinalized id epoch =>
    refine hquiet ?_ not_false
    change Kept (s.markFinalized id epoch)
    unfold DagIndex.markFinalized
    split
    · exact h.of_eq ⟨rfl, rfl, rfl, rfl⟩ rfl rfl rfl
    · exact h
  | setCurrentEpoch epoch =>
    refine hquiet ?_ not_false
    change Kept (s.setCurrentEpoch epoch)
    unfold DagIndex.setCurrentEpoch
    split
    · exact h.of_eq ⟨rfl, rfl, rfl, rfl⟩ rfl rfl rfl
    · exact h
  | evictOldEpochs =>
    refine hquiet ?_ not_false
    change Kept s.evictOldEpochs.1
    unfold DagIndex.evictOldEpochs
    split
    · exact h
    · exact h.evict _
  | evictFinalized isFinalized => exact hquiet (h.evict _) not_false
  | evictOlderThan now maxAgeSecs => exact hquiet (h.evict _) not_false
  | evictToCap maxRecords =>
    refine hquiet ?_ not_false
    change Kept (s.evictToCap maxRecords).1
    unfold DagIndex.evictToCap
    split
    · exact h
    · exact h.evict _
  | setNodeZone id zone => exact hquiet (h.setNodeZone id zone) not_false
  | linkExternalParent childId parentId =>
    exact hquiet (h.linkExternalParent childId parentId) not_false
  | relinkSingleParent parentId =>
    exact hquiet (h.relinkSingleParent (hrelink parentId rfl)).1 not_false
  | reindexOrphans => exact hquiet h.reindexOrphans not_false
  | removeOrphanParent parentId =>
    refine hquiet ?_ not_false
    change Kept (s.removeOrphanParent parentId).1
    unfold DagIndex.removeOrphanParent
    split
    · exact h.of_eq ⟨rfl, rfl, rfl, rfl⟩ rfl rfl rfl
    · exact h
  | pruneOrphanEdges maxEntries =>
    refine hquiet ?_ not_false
    change Kept (s.pruneOrphanEdges maxEntries).1
    unfold DagIndex.pruneOrphanEdges
    split
    · exact h
    · exact h.dropGroups _ _ _
  | remove id => exact hquiet (h.remove id) not_false

/-! ### Runs -/

/-- The index after some calls from the start. -/
def run (calls : List Call) : DagIndex := calls.foldl step DagIndex.new

/-- Orphans of a single parent are only relinked once it is there. -/
def RelinksPresent (calls : List Call) : Prop :=
  ∀ before p, before ++ [.relinkSingleParent p] <+: calls → p ∈ (run before).nodes

def NoStray (calls : List Call) : Prop :=
  ∀ before call, before ++ [call] <+: calls → ¬ Stray (run before) call

theorem run_concat (calls : List Call) (call : Call) :
    run (calls ++ [call]) = step (run calls) call := List.foldl_concat _ _ _ _

theorem kept_run {calls : List Call} (hrelinks : RelinksPresent calls) (hstray : NoStray calls) :
    Kept (run calls) := by
  induction calls using List.reverseRecOn with
  | nil => exact kept_new
  | append_singleton calls call ih =>
    have hbefore : calls <+: calls ++ [call] := List.prefix_append _ _
    have hkept := ih (fun before p h => hrelinks before p (h.trans hbefore))
      fun before c h => hstray before c (h.trans hbefore)
    obtain ⟨hthere, hexact⟩ := step_kept hkept call fun p hp =>
      hrelinks calls p (hp ▸ List.prefix_rfl)
    rw [run_concat]
    exact ⟨hexact.mpr (hstray calls call List.prefix_rfl), hthere⟩

theorem noStray_of_agrees {calls : List Call} (hrelinks : RelinksPresent calls)
    (hagrees : ∀ before, before <+: calls → Agrees (run before)) : NoStray calls := by
  induction calls using List.reverseRecOn with
  | nil =>
    intro before call h
    simp at h
  | append_singleton calls call ih =>
    have hbefore : calls <+: calls ++ [call] := List.prefix_append _ _
    have hrelinks' : RelinksPresent calls := fun before p h => hrelinks before p (h.trans hbefore)
    have hnone := ih hrelinks' fun before h => hagrees before (h.trans hbefore)
    intro before c h
    rcases List.prefix_concat_iff.mp h with heq | h
    · obtain ⟨rfl, hc⟩ := List.append_inj' heq rfl
      obtain rfl : c = call := List.singleton_inj.mp hc
      have hstep := step_kept (kept_run hrelinks' hnone) c fun p hp =>
        hrelinks before p (hp ▸ List.prefix_rfl)
      refine hstep.2.mp ?_
      rw [← run_concat, ← agrees_iff]
      exact hagrees _ List.prefix_rfl
    · exact hnone before c h

/-- The indexes agree with a rebuild throughout a run exactly if no call of the run adds a record
as a root that already has a parent. -/
theorem agrees_throughout_iff (calls : List Call) (hrelinks : RelinksPresent calls) :
    (∀ before, before <+: calls → Agrees (run before)) ↔ NoStray calls := by
  refine ⟨noStray_of_agrees hrelinks, fun hstray before hbefore => (agrees_iff _).mpr ?_⟩
  exact (kept_run (fun before' p h => hrelinks before' p (h.trans hbefore))
    fun before' c h => hstray before' c (h.trans hbefore)).exact

end Calls

section Samples

attribute [local instance] SetWalk.sorted Iteration.stored

/-- A record that arrives before its parent, and is wired then. -/
def lateParent : List Call :=
  [.insertTolerant (Str.text "c") [Str.text "p"] F64.zero,
    .insertTolerant (Str.text "p") [] F64.zero,
    .relinkSingleParent (Str.text "p")]

theorem agrees_lateParent :
    RelinksPresent lateParent ∧
      ((∀ before, before <+: lateParent → Agrees (run before)) ↔ NoStray lateParent) := by
  have hrelinks : RelinksPresent lateParent := by
    rintro before p ⟨rest, h⟩
    -- the relink is the third call
    rcases before with _ | ⟨c₁, _ | ⟨c₂, _ | ⟨c₃, before⟩⟩⟩
    · simp [lateParent] at h
    · simp [lateParent] at h
    · obtain ⟨rfl, rfl, rfl, -⟩ : _ ∧ _ ∧ p = Str.text "p" ∧ _ := by
        simpa [lateParent] using h
      decide +kernel
    · simp [lateParent] at h
  exact ⟨hrelinks, agrees_throughout_iff lateParent hrelinks⟩

/-- A record is evicted while it waits for its parent, the parent is found in the storage, and the
record arrives again. -/
def evictedWaiting : List Call :=
  [.insertTolerant (Str.text "c") [Str.text "p"] F64.zero,
    .remove (Str.text "c"),
    .linkExternalParent (Str.text "c") (Str.text "p"),
    .insertTolerant (Str.text "c") [Str.text "p"] F64.zero]

/-- The record is kept as a root, though it has a parent. -/
theorem evictedWaiting_root :
    (run evictedWaiting).rootsIdx = {Str.text "c"} ∧
      (run evictedWaiting).rebuildIndices.rootsIdx = ∅ ∧
      ∀ call ∈ evictedWaiting, ∀ p, call ≠ .relinkSingleParent p := by
  refine ⟨by decide +kernel, by decide +kernel, ?_⟩
  simp [evictedWaiting]

end Samples

end ElaraMesh.Dag
