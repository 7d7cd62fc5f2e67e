import ElaraMesh.Lib.Fifo
import ElaraMesh.Lib.Runs
import ElaraMesh.Lib.Table
import ElaraMesh.Record.Text
import Mathlib.Data.Finset.Sort

/-!
# The index of finalized records

The ids of all finalized records are on disk; a bounded number of them is kept in memory, and
their total is counted.  An id is reported as new if it is neither in memory nor was on disk
when the disk was asked, and what has to be done once for a record is done for the ids that are
reported.

A batch asks the disk for all of its ids before it writes any of them.  An id that comes twice in
a batch is recognized the second time only in memory, where it may have been dropped for the ids
in between.

## Main results

* `finalizedOnce_iff` — every state of a run is right if and only if every batch keeps its
  repeated ids.
* `finalizedOnce_evicted` — a batch of three ids that reports one of them twice.
-/

namespace ElaraMesh.Consensus

open Record (Str)

/-! ### The disk -/

/-- The keys of finalized records and of effects that are still to be done. -/
structure FinalizedStore where
  finalized : Finset Str
  pendingEffects : Table Str UInt8

/-- The marker of effects of which none is done. -/
def pendingEffectsFresh : UInt8 := 0x00

/-- A write to one of these keys. -/
inductive Put where
  | finalized (rid : Str) : Put
  | pendingEffects (rid : Str) (value : UInt8) : Put
  deriving DecidableEq

namespace FinalizedStore

def put (rocks : FinalizedStore) : Put → FinalizedStore
  | .finalized rid => { rocks with finalized := insert rid rocks.finalized }
  | .pendingEffects rid value =>
    { rocks with pendingEffects := rocks.pendingEffects.insert rid value }

def writeBatch (rocks : FinalizedStore) (batch : List Put) : FinalizedStore := batch.foldl put rocks

/-- The batch for some ids: those that are not on disk come with a marker. -/
def markedBatch (rocks : FinalizedStore) (rids : List Str) : List Put :=
  rids.flatMap fun rid => .finalized rid ::
    if rid ∈ rocks.finalized then [] else [.pendingEffects rid pendingEffectsFresh]

end FinalizedStore

/-! ### The index -/

structure FinalizedIndex where
  hot : Finset Str
  /-- The same ids, the oldest in front. -/
  order : List Str
  capacity : ℕ
  totalCount : ℕ
  rocks : FinalizedStore

namespace FinalizedIndex

def new (rocks : FinalizedStore) (capacity : ℕ) : FinalizedIndex := ⟨∅, [], capacity, 0, rocks⟩

def loadCountFromRocks (s : FinalizedIndex) : FinalizedIndex :=
  { s with totalCount := s.rocks.finalized.card }

/-- Fill the memory with the first ids on disk. -/
def loadHotFromRocks (s : FinalizedIndex) : FinalizedIndex :=
  let ids := (s.rocks.finalized.sort (· ≤ ·)).take s.capacity
  { s with hot := ids.toFinset, order := ids }

/-- An index as it is after a start. -/
def opened (rocks : FinalizedStore) (capacity : ℕ) : FinalizedIndex :=
  (new rocks capacity).loadCountFromRocks.loadHotFromRocks

def restoreFromSnapshot (s : FinalizedIndex) (allIds : Finset Str) : FinalizedIndex :=
  let restored := { s with rocks := { s.rocks with finalized := s.rocks.finalized ∪ allIds } }
  restored.loadCountFromRocks.loadHotFromRocks

def contains (s : FinalizedIndex) (rid : Str) : Bool := rid ∈ s.hot || rid ∈ s.rocks.finalized

def len (s : FinalizedIndex) : ℕ := s.totalCount

/-- Drop the oldest id if there is no room for another one. -/
def evictOldest (s : FinalizedIndex) : FinalizedIndex :=
  if s.capacity ≤ s.hot.card then
    match s.order with
    | old :: rest => { s with hot := s.hot.erase old, order := rest }
    | [] => s
  else s

/-- Take an id into memory; it is new if it was neither there nor on disk. -/
def insertHot (s : FinalizedIndex) (rid : Str) (alreadyInCold : Bool) : FinalizedIndex × Bool :=
  if rid ∈ s.hot then (s, false)
  else
    ({ s.evictOldest with
        hot := insert rid s.evictOldest.hot
        order := s.evictOldest.order ++ [rid]
        totalCount := if alreadyInCold then s.totalCount else s.totalCount + 1 },
      !alreadyInCold)

def insert (s : FinalizedIndex) (rid : Str) : FinalizedIndex × Bool :=
  { s with rocks := s.rocks.put (.finalized rid) }.insertHot rid (rid ∈ s.rocks.finalized)

def insertMarked (s : FinalizedIndex) (rid : Str) : FinalizedIndex × Bool :=
  { s with rocks := s.rocks.writeBatch (s.rocks.markedBatch [rid]) }.insertHot rid
    (rid ∈ s.rocks.finalized)

/-- One id of a batch, with the ids that were new so far. -/
def insertNext (cold : Finset Str) (acc : FinalizedIndex × List Str) (rid : Str) :
    FinalizedIndex × List Str :=
  ((acc.1.insertHot rid (rid ∈ cold)).1,
    if (acc.1.insertHot rid (rid ∈ cold)).2 then acc.2 ++ [rid] else acc.2)

/-- Write a batch.  Which ids are on disk is asked before. -/
def insertBatchReturningNew (s : FinalizedIndex) (rids : List Str) : FinalizedIndex × List Str :=
  rids.foldl (insertNext s.rocks.finalized)
    ({ s with rocks := s.rocks.writeBatch (s.rocks.markedBatch rids) }, [])

end FinalizedIndex

/-! ### Runs -/

inductive Op where
  | insert (rid : Str) : Op
  | insertMarked (rid : Str) : Op
  | insertBatchReturningNew (rids : List Str) : Op
  | restoreFromSnapshot (allIds : Finset Str) : Op
  | loadCountFromRocks : Op
  | loadHotFromRocks : Op
  /-- The process starts again on the same disk. -/
  | restart (capacity : ℕ) : Op

/-- The index after an operation, and the ids that are reported as new. -/
def FinalizedIndex.apply (s : FinalizedIndex) : Op → FinalizedIndex × List Str
  | .insert rid => ((s.insert rid).1, if (s.insert rid).2 then [rid] else [])
  | .insertMarked rid => ((s.insertMarked rid).1, if (s.insertMarked rid).2 then [rid] else [])
  | .insertBatchReturningNew rids => s.insertBatchReturningNew rids
  | .restoreFromSnapshot allIds => (s.restoreFromSnapshot allIds, [])
  | .loadCountFromRocks => (s.loadCountFromRocks, [])
  | .loadHotFromRocks => (s.loadHotFromRocks, [])
  | .restart capacity => (.opened s.rocks capacity, [])

/-- An index, and what was reported as new up to now. -/
structure History where
  index : FinalizedIndex
  reported : List Str

namespace History

def step (t : History) (op : Op) : History :=
  ⟨(t.index.apply op).1, t.reported ++ (t.index.apply op).2⟩

/-- The operations after a start on a disk. -/
def run (rocks : FinalizedStore) (capacity : ℕ) (ops : List Op) : History :=
  ops.foldl step ⟨.opened rocks capacity, []⟩

/-- Every id was reported at most once, the count is that of the ids on disk, and the ids that
are found are those on disk. -/
structure Once (t : History) : Prop where
  nodup : t.reported.Nodup
  len_eq : t.index.len = t.index.rocks.finalized.card
  contains_iff : ∀ rid, t.index.contains rid = true ↔ rid ∈ t.index.rocks.finalized

end History

/-- What an operation with markers reports as new is written with its marker in one batch. -/
def WritesMarkers (s : FinalizedIndex) : Op → Prop
  | .insertMarked rid =>
    (s.insertMarked rid).1.rocks = s.rocks.writeBatch (s.rocks.markedBatch [rid]) ∧
      ((s.insertMarked rid).2 = true → Put.finalized rid ∈ s.rocks.markedBatch [rid] ∧
        Put.pendingEffects rid pendingEffectsFresh ∈ s.rocks.markedBatch [rid])
  | .insertBatchReturningNew rids =>
    (s.insertBatchReturningNew rids).1.rocks = s.rocks.writeBatch (s.rocks.markedBatch rids) ∧
      ∀ rid ∈ (s.insertBatchReturningNew rids).2, Put.finalized rid ∈ s.rocks.markedBatch rids ∧
        Put.pendingEffects rid pendingEffectsFresh ∈ s.rocks.markedBatch rids
  | _ => True

/-- An id that was not on disk and comes again in a batch is still in memory. -/
def KeepsRepeats (s : FinalizedIndex) : Op → Prop
  | .insertBatchReturningNew rids => ∀ before rid, before ++ [rid] <+: rids → rid ∈ before →
      rid ∉ s.rocks.finalized → rid ∈ Fifo.pushAll s.capacity s.order before
  | _ => True

/-! ### The memory -/

namespace FinalizedIndex

/-- The two views of the memory agree. -/
structure HotSound (s : FinalizedIndex) : Prop where
  hot_eq : s.hot = s.order.toFinset
  nodup : s.order.Nodup

variable {s : FinalizedIndex}

variable {rid : Str} {rocks : FinalizedStore}

theorem HotSound.mem_hot (h : s.HotSound) : rid ∈ s.hot ↔ rid ∈ s.order := by
  rw [h.hot_eq, List.mem_toFinset]

theorem HotSound.order_evictOldest (h : s.HotSound) :
    s.evictOldest.order = Fifo.makeRoom s.capacity s.order ∧ s.evictOldest.HotSound := by
  have hcard : s.hot.card = s.order.length := by
    rw [h.hot_eq, List.toFinset_card_of_nodup h.nodup]
  unfold evictOldest Fifo.makeRoom
  rw [hcard]
  split
  · cases horder : s.order with
    | nil => exact ⟨horder, h⟩
    | cons old rest =>
      have hnodup := h.nodup
      rw [horder, List.nodup_cons] at hnodup
      refine ⟨rfl, ?_, hnodup.2⟩
      have hold : old ∉ rest.toFinset := mt List.mem_toFinset.mp hnodup.1
      show s.hot.erase old = rest.toFinset
      rw [h.hot_eq, horder, List.toFinset_cons, Finset.erase_insert hold]
  · exact ⟨rfl, h⟩

theorem evictOldest_frame (s : FinalizedIndex) :
    s.evictOldest.capacity = s.capacity ∧ s.evictOldest.rocks = s.rocks := by
  unfold evictOldest
  split
  · split <;> exact ⟨rfl, rfl⟩
  · exact ⟨rfl, rfl⟩

/-- What one id does to the index, and when it is new. -/
structure Inserted (s : FinalizedIndex) (rid : Str) (inCold : Bool) (r : FinalizedIndex × Bool) :
    Prop where
  sound : r.1.HotSound
  order_eq : r.1.order = Fifo.push s.capacity s.order rid
  capacity_eq : r.1.capacity = s.capacity
  rocks_eq : r.1.rocks = s.rocks
  count_eq : r.1.totalCount = s.totalCount + if r.2 then 1 else 0
  new_iff : r.2 = true ↔ rid ∉ s.order ∧ inCold = false

theorem HotSound.inserted (h : s.HotSound) (rid : Str) (inCold : Bool) :
    s.Inserted rid inCold (s.insertHot rid inCold) := by
  unfold insertHot
  by_cases hmem : rid ∈ s.hot
  · rw [if_pos hmem]
    have horder := h.mem_hot.mp hmem
    exact ⟨h, (if_pos horder).symm, rfl, rfl, rfl, by simp [horder]⟩
  · rw [if_neg hmem]
    have horder := mt h.mem_hot.mpr hmem
    obtain ⟨heq, hsound⟩ := h.order_evictOldest
    have hnot : rid ∉ s.evictOldest.order := by
      rw [heq]
      exact fun h => horder ((Fifo.makeRoom_suffix _ _).subset h)
    obtain ⟨hcapacity, hrocks⟩ := s.evictOldest_frame
    refine ⟨⟨?_, ?_⟩, ?_, hcapacity, hrocks, ?_, by simp [horder]⟩
    · show _ = (s.evictOldest.order ++ [rid]).toFinset
      rw [List.toFinset_append, ← hsound.hot_eq, Finset.union_comm]
      rfl
    · exact hsound.nodup.append (List.nodup_singleton rid)
        (List.disjoint_singleton.mpr hnot)
    · rw [Fifo.push, if_neg horder, ← heq]
    · cases inCold <;> rfl

/-- The ids of a batch up to now: which of them are new, and whether one is so twice. -/
structure Batched (s : FinalizedIndex) (cold : Finset Str) (l : List Str)
    (r : FinalizedIndex × List Str) : Prop where
  sound : r.1.HotSound
  order_eq : r.1.order = Fifo.pushAll s.capacity s.order l
  capacity_eq : r.1.capacity = s.capacity
  rocks_eq : r.1.rocks = s.rocks
  count_eq : r.1.totalCount = s.totalCount + r.2.length
  mem_new_iff : ∀ rid, rid ∈ r.2 ↔ rid ∈ l ∧ rid ∉ cold
  nodup_iff : r.2.Nodup ↔ ∀ before rid, before ++ [rid] <+: l → rid ∈ before → rid ∉ cold →
    rid ∈ Fifo.pushAll s.capacity s.order before

theorem HotSound.batched (h : s.HotSound) {cold : Finset Str} (hcold : ∀ rid ∈ s.order, rid ∈ cold)
    (l : List Str) : s.Batched cold l (l.foldl (insertNext cold) (s, [])) := by
  -- by induction on the end of the batch, as the ids come
  induction l using List.reverseRecOn with
  | nil =>
    refine ⟨h, rfl, rfl, rfl, rfl, by simp, iff_of_true List.nodup_nil fun before rid hpre => ?_⟩
    exact absurd (List.prefix_nil.mp hpre) (List.concat_ne_nil _ _)
  | append_singleton l a ih =>
    rw [List.foldl_concat]
    generalize l.foldl (insertNext cold) (s, []) = acc at ih
    have hins := ih.sound.inserted a (a ∈ cold)
    have horder : (insertNext cold acc a).1.order = Fifo.pushAll s.capacity s.order (l ++ [a]) := by
      rw [Fifo.pushAll_concat, ← ih.order_eq, ← ih.capacity_eq]
      exact hins.order_eq
    have hnew : (acc.1.insertHot a (a ∈ cold)).2 = true ↔
        a ∉ Fifo.pushAll s.capacity s.order l ∧ a ∉ cold := by
      rw [hins.new_iff, ih.order_eq, decide_eq_false_iff_not]
    -- a new id that is not reported came before, and is still there
    have hold : (acc.1.insertHot a (a ∈ cold)).2 ≠ true → a ∉ cold →
        a ∈ Fifo.pushAll s.capacity s.order l := fun hnot hfree =>
      not_not.mp fun hmem => hnot (hnew.mpr ⟨hmem, hfree⟩)
    have hcount := hins.count_eq
    rw [ih.count_eq] at hcount
    refine ⟨hins.sound, horder, hins.capacity_eq.trans ih.capacity_eq,
      hins.rocks_eq.trans ih.rocks_eq, ?_, fun rid => ?_, ?_⟩
    · show (acc.1.insertHot a (a ∈ cold)).1.totalCount = _
      rw [hcount, insertNext]
      split
      · rw [List.length_append, List.length_singleton, Nat.add_assoc]
      · rfl
    · unfold insertNext
      split
      · next hreported =>
        have hfree := (hnew.mp hreported).2
        rw [List.mem_append, List.mem_append, List.mem_singleton, ih.mem_new_iff, or_and_right]
        exact or_congr_right (iff_self_and.mpr fun heq => heq ▸ hfree)
      · next hreported =>
        rw [ih.mem_new_iff, List.mem_append, List.mem_singleton]
        refine and_congr_left fun hfree => (or_iff_left_of_imp ?_).symm
        rintro rfl
        exact (Fifo.mem_of_mem_pushAll (hold hreported hfree)).resolve_left
          fun h => hfree (hcold _ h)
    · rw [Runs.forall_splits_concat_iff, ← ih.nodup_iff]
      unfold insertNext
      split
      · next hreported =>
        obtain ⟨hgone, hfree⟩ := hnew.mp hreported
        rw [← List.concat_eq_append, List.nodup_concat, ih.mem_new_iff, and_comm]
        exact and_congr_right fun _ => ⟨fun h hmem => absurd ⟨hmem, hfree⟩ h,
          fun h hmem => hgone (h hmem.1 hmem.2)⟩
      · next hreported => exact (and_iff_left fun _ => hold hreported).symm

/-! ### Single operations -/

/-- The memory holds ids on disk only, and the ids on disk are counted. -/
structure Sound (s : FinalizedIndex) : Prop where
  hotSound : s.HotSound
  order_subset : ∀ rid ∈ s.order, rid ∈ s.rocks.finalized
  count_eq : s.totalCount = s.rocks.finalized.card

theorem hotSound_loadHot (s : FinalizedIndex) : s.loadHotFromRocks.HotSound :=
  ⟨rfl, (Finset.sort_nodup _ _).sublist (List.take_sublist _ _)⟩

theorem subset_loadHot (s : FinalizedIndex) :
    ∀ rid ∈ s.loadHotFromRocks.order, rid ∈ s.rocks.finalized := fun _ h =>
  (Finset.mem_sort _).mp (List.mem_of_mem_take h)

theorem sound_load (s : FinalizedIndex) : s.loadCountFromRocks.loadHotFromRocks.Sound :=
  ⟨hotSound_loadHot _, subset_loadHot s.loadCountFromRocks, rfl⟩

theorem finalized_writeBatch (rocks cold : FinalizedStore) (rids : List Str) :
    (rocks.writeBatch (cold.markedBatch rids)).finalized = rocks.finalized ∪ rids.toFinset := by
  induction rids generalizing rocks with
  | nil => exact (Finset.union_empty _).symm
  | cons rid rids ih =>
    have hfirst : (rocks.writeBatch (.finalized rid :: if rid ∈ cold.finalized then []
        else [.pendingEffects rid pendingEffectsFresh])).finalized =
        Insert.insert rid rocks.finalized := by
      split <;> rfl
    have hcons : rocks.writeBatch (cold.markedBatch (rid :: rids)) =
        (rocks.writeBatch (.finalized rid :: if rid ∈ cold.finalized then []
          else [.pendingEffects rid pendingEffectsFresh])).writeBatch (cold.markedBatch rids) :=
      List.foldl_append ..
    rw [hcons, ih, hfirst, List.toFinset_cons, Finset.insert_union, Finset.union_insert]

/-- What an operation does to an index that is sound: the ids it reports are new ones, and they
are counted right unless a batch reports one twice. -/
structure Effect (s : FinalizedIndex) (op : Op) (r : FinalizedIndex × List Str) : Prop where
  hotSound : r.1.HotSound
  order_subset : ∀ rid ∈ r.1.order, rid ∈ r.1.rocks.finalized
  finalized_subset : s.rocks.finalized ⊆ r.1.rocks.finalized
  new : ∀ rid ∈ r.2, rid ∉ s.rocks.finalized ∧ rid ∈ r.1.rocks.finalized
  count : r.2.Nodup → r.1.totalCount = r.1.rocks.finalized.card
  nodup_iff : r.2.Nodup ↔ KeepsRepeats s op
  marks : WritesMarkers s op

/-- An operation that reports nothing new. -/
theorem Sound.effect_of_nil {r : FinalizedIndex} {op : Op} (hr : r.Sound)
    (hsubset : s.rocks.finalized ⊆ r.rocks.finalized) (hkeeps : KeepsRepeats s op)
    (hmarks : WritesMarkers s op) : s.Effect op (r, []) :=
  ⟨hr.hotSound, hr.order_subset, hsubset, (fun _ h => nomatch h), fun _ => hr.count_eq,
    iff_of_true List.nodup_nil hkeeps, hmarks⟩

/-- One id, with or without a marker. -/
theorem Sound.insertHot_put (h : s.Sound)
    (hrocks : rocks.finalized = Insert.insert rid s.rocks.finalized)
    {r : FinalizedIndex × Bool}
    (hr : r = { s with rocks }.insertHot rid (rid ∈ s.rocks.finalized)) :
    r.1.Sound ∧ r.1.rocks = rocks ∧ (r.2 = true ↔ rid ∉ s.rocks.finalized) := by
  have hins := HotSound.inserted (s := { s with rocks }) ⟨h.hotSound.hot_eq, h.hotSound.nodup⟩ rid
    (rid ∈ s.rocks.finalized)
  rw [← hr] at hins
  have hnew : r.2 = true ↔ rid ∉ s.rocks.finalized := by
    rw [hins.new_iff, decide_eq_false_iff_not]
    exact and_iff_right_of_imp fun hfree hmem => hfree (h.order_subset rid hmem)
  refine ⟨⟨hins.sound, fun x hx => ?_, ?_⟩, hins.rocks_eq, hnew⟩
  · rw [hins.order_eq] at hx
    rw [hins.rocks_eq, hrocks, Finset.mem_insert]
    exact (Fifo.mem_of_mem_push hx).symm.imp_right (h.order_subset x)
  · rw [hins.count_eq, hins.rocks_eq, hrocks]
    show s.totalCount + _ = _
    rw [h.count_eq]
    by_cases hmem : rid ∈ s.rocks.finalized
    · rw [if_neg (mt hnew.mp (not_not.mpr hmem)), Finset.insert_eq_of_mem hmem, Nat.add_zero]
    · rw [if_pos (hnew.mpr hmem), Finset.card_insert_of_notMem hmem]

/-- One id that is reported if it is new. -/
theorem Sound.effect_of_one (h : s.Sound) {op : Op}
    (hrocks : rocks.finalized = Insert.insert rid s.rocks.finalized)
    {r : FinalizedIndex × Bool}
    (hr : r = { s with rocks }.insertHot rid (rid ∈ s.rocks.finalized))
    (hkeeps : KeepsRepeats s op) (hmarks : WritesMarkers s op) :
    s.Effect op (r.1, if r.2 then [rid] else []) := by
  obtain ⟨hsound, hrocks', hnew⟩ := h.insertHot_put hrocks hr
  have hfinalized : r.1.rocks.finalized = Insert.insert rid s.rocks.finalized :=
    (congrArg FinalizedStore.finalized hrocks').trans hrocks
  have hnodup : (if r.2 then [rid] else []).Nodup := by
    split
    · exact List.nodup_singleton rid
    · exact List.nodup_nil
  refine ⟨hsound.hotSound, hsound.order_subset, ?_, fun x hx => ?_, fun _ => hsound.count_eq,
    iff_of_true hnodup hkeeps, hmarks⟩
  · rw [hfinalized]
    exact Finset.subset_insert _ _
  · split at hx
    · next hreported =>
      rw [List.mem_singleton.mp hx, hfinalized]
      exact ⟨hnew.mp hreported, Finset.mem_insert_self _ _⟩
    · cases hx

/-- An id of a batch that is not on disk is written with its marker. -/
theorem mem_markedBatch {rids : List Str} (hmem : rid ∈ rids)
    (hfree : rid ∉ rocks.finalized) : Put.finalized rid ∈ rocks.markedBatch rids ∧
      Put.pendingEffects rid pendingEffectsFresh ∈ rocks.markedBatch rids := by
  refine ⟨List.mem_flatMap.mpr ⟨rid, hmem, List.mem_cons_self⟩,
    List.mem_flatMap.mpr ⟨rid, hmem, List.mem_cons_of_mem _ ?_⟩⟩
  rw [if_neg hfree]
  exact List.mem_cons_self

theorem Sound.effect_insertMarked (h : s.Sound) (rid : Str) :
    s.Effect (.insertMarked rid) (s.apply (.insertMarked rid)) := by
  have hrocks : (s.rocks.writeBatch (s.rocks.markedBatch [rid])).finalized =
      Insert.insert rid s.rocks.finalized := by
    rw [finalized_writeBatch, Finset.union_comm]
    rfl
  obtain ⟨-, hwritten, hnew⟩ := h.insertHot_put hrocks rfl
  exact h.effect_of_one hrocks rfl trivial
    ⟨hwritten, fun hreported => mem_markedBatch List.mem_cons_self (hnew.mp hreported)⟩

theorem Sound.effect_insertBatch (h : s.Sound) (rids : List Str) :
    s.Effect (.insertBatchReturningNew rids) (s.insertBatchReturningNew rids) := by
  have hbatch := HotSound.batched
    (s := { s with rocks := s.rocks.writeBatch (s.rocks.markedBatch rids) })
    ⟨h.hotSound.hot_eq, h.hotSound.nodup⟩ h.order_subset rids
  change Batched _ _ _ (s.insertBatchReturningNew rids) at hbatch
  generalize hr : s.insertBatchReturningNew rids = r at hbatch
  have hfinalized : r.1.rocks.finalized = s.rocks.finalized ∪ rids.toFinset := by
    rw [hbatch.rocks_eq]
    exact finalized_writeBatch s.rocks s.rocks rids
  refine ⟨hbatch.sound, fun x hx => ?_, ?_, fun x hx => ?_, fun hnodup => ?_, hbatch.nodup_iff,
    ?_⟩
  · rw [hbatch.order_eq] at hx
    rw [hfinalized, Finset.mem_union, List.mem_toFinset]
    exact (Fifo.mem_of_mem_pushAll hx).imp_left (h.order_subset x)
  · rw [hfinalized]
    exact Finset.subset_union_left
  · obtain ⟨hmem, hfree⟩ := (hbatch.mem_new_iff x).mp hx
    rw [hfinalized]
    exact ⟨hfree, Finset.mem_union_right _ (List.mem_toFinset.mpr hmem)⟩
  · have hnew : r.2.toFinset = rids.toFinset \ s.rocks.finalized := by
      ext x
      rw [List.mem_toFinset, hbatch.mem_new_iff, Finset.mem_sdiff, List.mem_toFinset]
    have hlength : r.2.length = (rids.toFinset \ s.rocks.finalized).card := by
      rw [← hnew, List.toFinset_card_of_nodup hnodup]
    rw [hbatch.count_eq, hlength, hfinalized, ← Finset.union_sdiff_self_eq_union,
      Finset.card_union_of_disjoint Finset.disjoint_sdiff]
    exact congrArg (· + _) h.count_eq
  · show (s.insertBatchReturningNew rids).1.rocks = _ ∧ _
    rw [hr]
    exact ⟨hbatch.rocks_eq, fun rid hrid =>
      mem_markedBatch ((hbatch.mem_new_iff rid).mp hrid).1 ((hbatch.mem_new_iff rid).mp hrid).2⟩

theorem Sound.effect (h : s.Sound) (op : Op) : s.Effect op (s.apply op) := by
  cases op with
  | insert rid => exact h.effect_of_one rfl rfl trivial trivial
  | insertMarked rid => exact h.effect_insertMarked rid
  | insertBatchReturningNew rids => exact h.effect_insertBatch rids
  | restoreFromSnapshot allIds =>
    exact (sound_load _).effect_of_nil Finset.subset_union_left trivial trivial
  | loadCountFromRocks =>
    exact Sound.effect_of_nil (r := s.loadCountFromRocks)
      ⟨⟨h.hotSound.hot_eq, h.hotSound.nodup⟩, h.order_subset, rfl⟩ (Finset.Subset.refl _) trivial
      trivial
  | loadHotFromRocks =>
    exact Sound.effect_of_nil (r := s.loadHotFromRocks)
      ⟨hotSound_loadHot s, subset_loadHot s, h.count_eq⟩ (Finset.Subset.refl _) trivial trivial
  | restart capacity =>
    exact (sound_load _).effect_of_nil (Finset.Subset.refl _) trivial trivial

end FinalizedIndex

/-! ### Whole runs -/

namespace History

/-- The index is sound, and what was reported is on disk and was reported once. -/
structure Sound (t : History) : Prop where
  index : t.index.Sound
  nodup : t.reported.Nodup
  subset : ∀ rid ∈ t.reported, rid ∈ t.index.rocks.finalized

variable {t : History}

theorem Sound.once (h : t.Sound) : t.Once where
  nodup := h.nodup
  len_eq := h.index.count_eq
  contains_iff rid := by
    unfold FinalizedIndex.contains
    rw [Bool.or_eq_true, decide_eq_true_iff, decide_eq_true_iff, h.index.hotSound.mem_hot]
    exact or_iff_right_of_imp (h.index.order_subset rid)

theorem Sound.step (h : t.Sound) {op : Op} (hkeeps : KeepsRepeats t.index op) :
    (t.step op).Sound := by
  have heffect := h.index.effect op
  have hnodup := heffect.nodup_iff.mpr hkeeps
  refine ⟨⟨heffect.hotSound, heffect.order_subset, heffect.count hnodup⟩,
    h.nodup.append hnodup fun x hx hnew => ?_, fun x hx => ?_⟩
  · exact (heffect.new x hnew).1 (h.subset x hx)
  · rcases List.mem_append.mp hx with hx | hx
    · exact heffect.finalized_subset (h.subset x hx)
    · exact (heffect.new x hx).2

theorem sound_start (rocks : FinalizedStore) (capacity : ℕ) :
    (⟨.opened rocks capacity, []⟩ : History).Sound :=
  ⟨FinalizedIndex.sound_load _, List.nodup_nil, fun _ h => nomatch h⟩

end History

/-- Over any disk, with any capacity and along every run: every id is reported at most once, the
count and the lookups are right in every state, and what is reported by an operation with markers
is written with its marker, if and only if in every batch a new id that comes again is still in
memory. -/
theorem finalizedOnce_iff (rocks : FinalizedStore) (capacity : ℕ) (ops : List Op) :
    ((∀ before, before <+: ops → (History.run rocks capacity before).Once) ∧
      ∀ before op, before ++ [op] <+: ops →
        WritesMarkers (History.run rocks capacity before).index op) ↔
    ∀ before op, before ++ [op] <+: ops →
      KeepsRepeats (History.run rocks capacity before).index op := by
  have hstart := History.sound_start rocks capacity
  have honce : (∀ before, before <+: ops → (History.run rocks capacity before).Once) ↔
      ∀ before op, before ++ [op] <+: ops →
        KeepsRepeats (History.run rocks capacity before).index op :=
    Runs.forall_prefix_iff_of (I := History.Sound)
      (C := fun t op => KeepsRepeats (History.index t) op)
      (fun t op ht hkeeps => ht.step hkeeps) (fun t ht => ht.once)
      (fun t op ht hstep =>
        (ht.index.effect op).nodup_iff.mp (List.nodup_append.mp hstep.nodup).2.1) hstart ops
  refine ⟨fun h => honce.mp h.1, fun hkeeps => ⟨honce.mpr hkeeps, fun before op hpre => ?_⟩⟩
  have hsound : (History.run rocks capacity before).Sound :=
    Runs.forall_prefixes (J := fun _ => True) (I := History.Sound)
      (C := fun t op => KeepsRepeats (History.index t) op) (fun _ _ _ => trivial)
      (fun t op _ ht hkeeps => ht.step hkeeps) trivial hstart hkeeps before
      ((List.prefix_append before [op]).trans hpre)
  exact (hsound.index.effect op).marks

def ridA : Str := .text "a"

def ridB : Str := .text "b"

/-- With room for one id, the batch `a`, `b`, `a` over an empty disk reports `a` twice: `b` takes
its place in memory.  Three ids are counted, and two are on disk. -/
theorem finalizedOnce_evicted :
    (History.run ⟨∅, ∅⟩ 1 [.insertBatchReturningNew [ridA, ridB, ridA]]).reported =
        [ridA, ridB, ridA] ∧
    (History.run ⟨∅, ∅⟩ 1 [.insertBatchReturningNew [ridA, ridB, ridA]]).index.len = 3 ∧
    (History.run ⟨∅, ∅⟩ 1
      [.insertBatchReturningNew [ridA, ridB, ridA]]).index.rocks.finalized = {ridA, ridB} := by
  decide +kernel

end ElaraMesh.Consensus
