import ElaraMesh.Epoch.Step
import ElaraMesh.Lib.BestRing

/-!
# The VRF ring and the order of arrival

The ring of a zone is brought back to its form after every seal: of each epoch the entry of the
smallest hash stays, and of these the 64 of the latest end times.  The two rules do not commute.
The winner of an epoch that ended early leaves the ring when 64 others end later; a rival of the
same epoch with a later end then enters, since nothing in the ring tells that it lost.

So the ring is a function of the set of seals exactly when every seal of an epoch that the whole
set drops ends before all that the whole set keeps.

## Main results

* `dedupSortTruncate_toFinset` — the ring keeps the winners of the latest end times.
* `vrfRing_order_iff` — **all orders of arrival leave one ring exactly for settled sets**.
-/

namespace ElaraMesh
namespace Epoch

open Record (Str ZoneId)
open Smt (Bytes32)

variable {Time : Type}

/-! ### One entry for each epoch -/

theorem dedupByEpoch_concat (l : VrfRing Time) (e : VrfRingEntry Time) :
    dedupByEpoch (l ++ [e]) = (dedupByEpoch l).upsert e.epoch e e.better := by
  unfold dedupByEpoch
  rw [List.foldl_concat]

/-- The entry of an epoch is one of its entries, and none of them has a smaller hash. -/
theorem get?_dedupByEpoch (l : VrfRing Time) (k : ℕ) :
    (∀ w, (dedupByEpoch l).get? k = some w →
      w ∈ l ∧ w.epoch = k ∧ ∀ y ∈ l, y.epoch = k → w.recordHash ≤ y.recordHash) ∧
    ((dedupByEpoch l).get? k = none → ∀ y ∈ l, y.epoch ≠ k) := by
  induction l using List.reverseRecOn with
  | nil => exact ⟨fun w h => (nomatch h), fun _ y hy => absurd hy List.not_mem_nil⟩
  | append_singleton l e ih =>
    rw [dedupByEpoch_concat, OrderedMap.get?_upsert]
    split_ifs with hk
    · subst hk
      refine ⟨fun w hw => ?_, fun h => nomatch h⟩
      cases hold : (dedupByEpoch l).get? e.epoch with
      | none =>
        rw [hold] at hw
        obtain rfl : e = w := Option.some.inj hw
        refine ⟨by simp, rfl, fun y hy hepoch => ?_⟩
        rcases List.mem_append.mp hy with hy | hy
        · exact absurd hepoch (ih.2 hold y hy)
        · rw [List.mem_singleton.mp hy]
      | some old =>
        rw [hold] at hw
        obtain rfl : e.better old = w := Option.some.inj hw
        obtain ⟨hmem, hepoch, hmin⟩ := ih.1 old hold
        unfold VrfRingEntry.better
        split_ifs with hlt
        · refine ⟨by simp, rfl, fun y hy hy' => ?_⟩
          rcases List.mem_append.mp hy with hy | hy
          · exact hlt.le.trans (hmin y hy hy')
          · rw [List.mem_singleton.mp hy]
        · refine ⟨List.mem_append_left _ hmem, hepoch, fun y hy hy' => ?_⟩
          rcases List.mem_append.mp hy with hy | hy
          · exact hmin y hy hy'
          · rw [List.mem_singleton.mp hy]
            exact not_lt.mp hlt
    · refine ⟨fun w hw => ?_, fun hnone y hy => ?_⟩
      · obtain ⟨hmem, hepoch, hmin⟩ := ih.1 w hw
        refine ⟨List.mem_append_left _ hmem, hepoch, fun y hy hy' => ?_⟩
        rcases List.mem_append.mp hy with hy | hy
        · exact hmin y hy hy'
        · rw [List.mem_singleton.mp hy] at hy'
          exact absurd hy'.symm hk
      · rcases List.mem_append.mp hy with hy | hy
        · exact ih.2 hnone y hy
        · rw [List.mem_singleton.mp hy]
          exact Ne.symm hk

variable {l : VrfRing Time}

theorem mem_values_dedupByEpoch {w : VrfRingEntry Time} :
    w ∈ (dedupByEpoch l).values ↔ (dedupByEpoch l).get? w.epoch = some w := by
  unfold OrderedMap.values
  rw [OrderedMap.get?_eq_some, List.mem_map]
  refine ⟨?_, fun h => ⟨_, h, rfl⟩⟩
  rintro ⟨⟨k, v⟩, hmem, rfl⟩
  have hepoch := ((get?_dedupByEpoch l k).1 v (OrderedMap.get?_eq_some.mpr hmem)).2.1
  rwa [hepoch]

theorem epochs_dedupByEpoch (l : VrfRing Time) :
    (dedupByEpoch l).values.Pairwise fun a b => a.epoch ≠ b.epoch := by
  unfold OrderedMap.values
  rw [List.pairwise_map]
  refine (dedupByEpoch l).sorted.imp_of_mem fun {a b} ha hb hlt => ?_
  have hepoch : ∀ e ∈ (dedupByEpoch l).entries, e.2.epoch = e.1 := fun e he =>
    ((get?_dedupByEpoch l e.1).1 e.2 (OrderedMap.get?_eq_some.mpr he)).2.1
  rw [hepoch a ha, hepoch b hb]
  exact hlt.ne

variable [LinearOrder Time]

def VrfRingEntry.key (e : VrfRingEntry Time) : Time ×ₗ ℕ := toLex (e.endTs, e.epoch)

theorem VrfRingEntry.le_iff {a b : VrfRingEntry Time} : a.le b ↔ a.key ≤ b.key := by
  unfold VrfRingEntry.le VrfRingEntry.key
  rw [Prod.Lex.toLex_le_toLex, decide_eq_true_iff]

/-- How ring entries compete: in an epoch by hash, between epochs by end time. -/
def ranking : Ranking (VrfRingEntry Time) ℕ Bytes32 (Time ×ₗ ℕ) where
  slot := VrfRingEntry.epoch
  hash := VrfRingEntry.recordHash
  key := VrfRingEntry.key
  slot_eq_of_key _ _ h := congrArg (fun k => (ofLex k).2) h

/-- With distinct hashes the entries that stay are the winners of their epochs. -/
theorem mem_values_iff_best (hl : ranking.Distinct l.toFinset)
    (w : VrfRingEntry Time) : w ∈ (dedupByEpoch l).values ↔ w ∈ ranking.best l.toFinset := by
  rw [mem_values_dedupByEpoch, Ranking.best, Finset.mem_filter, List.mem_toFinset]
  constructor
  · intro h
    obtain ⟨hmem, -, hmin⟩ := (get?_dedupByEpoch l w.epoch).1 w h
    exact ⟨hmem, fun y hy => hmin y (List.mem_toFinset.mp hy)⟩
  · rintro ⟨hmem, hmin⟩
    cases h : (dedupByEpoch l).get? w.epoch with
    | none => exact absurd rfl ((get?_dedupByEpoch l w.epoch).2 h w hmem)
    | some v =>
      obtain ⟨hv, hepoch, hvmin⟩ := (get?_dedupByEpoch l w.epoch).1 v h
      have heq : v.recordHash = w.recordHash := le_antisymm (hvmin w hmem rfl)
        (hmin v (List.mem_toFinset.mpr hv) hepoch)
      rw [hl v (List.mem_toFinset.mpr hv) w (List.mem_toFinset.mpr hmem) heq]

/-! ### The latest end times -/

/-- A ring lists its entries by strictly increasing keys. -/
def Sorted (ring : VrfRing Time) : Prop := ring.Pairwise fun a b => a.key < b.key

/-- The entries that stay, in the order of their keys. -/
def sortedEntries (l : VrfRing Time) : VrfRing Time :=
  (dedupByEpoch l).values.insertionSort fun a b => a.le b

theorem sorted_sortedEntries (l : VrfRing Time) : Sorted (sortedEntries l) := by
  have : IsTrans (VrfRingEntry Time) fun a b => a.le b := ⟨fun a b c hab hbc =>
    VrfRingEntry.le_iff.mpr ((VrfRingEntry.le_iff.mp hab).trans (VrfRingEntry.le_iff.mp hbc))⟩
  have : Std.Total fun a b : VrfRingEntry Time => a.le b := ⟨fun a b =>
    (le_total a.key b.key).imp VrfRingEntry.le_iff.mpr VrfRingEntry.le_iff.mpr⟩
  have hsorted := List.pairwise_insertionSort (fun a b : VrfRingEntry Time => a.le b)
    (dedupByEpoch l).values
  have hepochs : (sortedEntries l).Pairwise fun a b => a.epoch ≠ b.epoch :=
    ((List.perm_insertionSort _ _).pairwise_iff fun h => h.symm).mpr (epochs_dedupByEpoch l)
  exact (hsorted.and hepochs).imp fun h => lt_of_le_of_ne (VrfRingEntry.le_iff.mp h.1) fun heq =>
    h.2 (ranking.slot_eq_of_key _ _ heq)

theorem sorted_dedupSortTruncate (l : VrfRing Time) : Sorted (dedupSortTruncateVrfRing l) :=
  (sorted_sortedEntries l).sublist (List.drop_sublist _ _)

theorem mem_dedupSortTruncate {x : VrfRingEntry Time} :
    x ∈ dedupSortTruncateVrfRing l ↔ x ∈ (dedupByEpoch l).values ∧
      ((sortedEntries l).filter fun y => x.key < y.key).length < vrfHistoryPerZone := by
  have hmem : x ∈ sortedEntries l ↔ x ∈ (dedupByEpoch l).values := List.mem_insertionSort _
  rw [← hmem]
  exact Ranking.mem_drop_iff (R := ranking) (sorted_sortedEntries l) x

theorem Sorted.nodup {ring : VrfRing Time} (h : Sorted ring) : ring.Nodup :=
  List.Pairwise.imp (fun hlt heq => hlt.ne (congrArg VrfRingEntry.key heq)) h

/-- **The ring keeps the winners of the latest end times.** -/
theorem dedupSortTruncate_toFinset (hl : ranking.Distinct l.toFinset) :
    (dedupSortTruncateVrfRing l).toFinset = ranking.keep vrfHistoryPerZone l.toFinset := by
  have hvalues : ∀ y, y ∈ sortedEntries l ↔ y ∈ ranking.best l.toFinset := fun y =>
    (List.mem_insertionSort _).trans (mem_values_iff_best hl y)
  ext x
  rw [List.mem_toFinset, mem_dedupSortTruncate, mem_values_iff_best hl, Ranking.keep, Ranking.top,
    Finset.mem_filter]
  have hcount : ((sortedEntries l).filter fun y => x.key < y.key).length =
      (Finset.card {y ∈ ranking.best l.toFinset | ranking.key x < ranking.key y}) := by
    rw [← List.toFinset_card_of_nodup ((sorted_sortedEntries l).nodup.filter _)]
    refine congrArg Finset.card (Finset.ext fun y => ?_)
    rw [List.mem_toFinset, List.mem_filter, hvalues, Finset.mem_filter]
    simp [ranking]
  rw [hcount]

/-- A ring is determined by its set of entries. -/
theorem Sorted.eq_of_toFinset {ring ring' : VrfRing Time} (h : Sorted ring) (h' : Sorted ring')
    (heq : ring.toFinset = ring'.toFinset) : ring = ring' := by
  have : Std.Irrefl fun a b : VrfRingEntry Time => a.key < b.key := ⟨fun a => lt_irrefl a.key⟩
  have : Std.Antisymm fun a b : VrfRingEntry Time => a.key < b.key :=
    ⟨fun _ _ hab hba => absurd hab hba.asymm⟩
  refine List.Pairwise.eq_of_mem_iff h h' fun e => ?_
  rw [← List.mem_toFinset, heq, List.mem_toFinset]

/-! ### Seals in an order of arrival -/

def ringEntry (t : ParsedEpochSeal Time) (vrf recordHash : Bytes32) : VrfRingEntry Time :=
  ⟨t.endTs, t.epochNumber, vrf, recordHash⟩

def seeded (ring : VrfRing Time) (t : ParsedEpochSeal Time) (recordHash : Bytes32) :
    VrfRing Time :=
  match t.vrfOutput with
  | some vrf => dedupSortTruncateVrfRing (ring ++ [ringEntry t vrf recordHash])
  | none => ring

namespace EpochState

theorem vrfRing_seedVrfRing (s : EpochState Time) (t : ParsedEpochSeal Time)
    (recordHash : Bytes32) (zone : ZoneId) : (s.seedVrfRing t recordHash).vrfRing zone =
      if zone = t.zone then seeded (s.vrfRing zone) t recordHash else s.vrfRing zone := by
  unfold seedVrfRing seeded
  cases t.vrfOutput with
  | none => exact (ite_self _).symm
  | some vrf =>
    refine (Table.getD_insert s.vrfHistory t.zone zone _ []).trans ?_
    split_ifs with h
    · subst h
      rfl
    · rfl

theorem vrfRing_registerLosing (s : EpochState Time) (t : ParsedEpochSeal Time)
    (recordHash : Bytes32) (zone : ZoneId) : (s.registerLosing t recordHash).vrfRing zone =
      if zone = t.zone then seeded (s.vrfRing zone) t recordHash else s.vrfRing zone :=
  vrfRing_seedVrfRing _ t recordHash zone

theorem vrfRing_applyCanonicalSeal (s : EpochState Time) (t : ParsedEpochSeal Time)
    (recordId : Str) (recordHash : Bytes32) (zone : ZoneId) :
    (s.applyCanonicalSeal t recordId recordHash).1.vrfRing zone =
      if s.chainAnchorAdmits t.zone t.epochNumber recordHash ∧ zone = t.zone then
        seeded (s.vrfRing zone) t recordHash
      else s.vrfRing zone := by
  unfold applyCanonicalSeal
  by_cases h : s.chainAnchorAdmits t.zone t.epochNumber recordHash
  · rw [if_neg (not_not_intro h)]
    refine (vrfRing_seedVrfRing _ t recordHash zone).trans ?_
    simp only [h, true_and]
    rfl
  · rw [if_pos h, if_neg fun hand => h hand.1]

end EpochState

structure SealRecord (Time : Type) where
  t : ParsedEpochSeal Time
  recordId : Str
  recordHash : Bytes32

def SealRecord.call (r : SealRecord Time) : Call Time := .registerSeal r.t r.recordId r.recordHash

def SealRecord.entry (r : SealRecord Time) : VrfRingEntry Time :=
  ringEntry r.t (r.t.vrfOutput.getD .zero) r.recordHash

/-- The state after seals in an order of arrival, without pinned anchors. -/
def feed (seals : List (SealRecord Time)) : EpochState Time := run [] (seals.map SealRecord.call)

/-- A ring after entries in an order of arrival. -/
def ringAfter (l : VrfRing Time) : VrfRing Time :=
  l.foldl (fun ring e => dedupSortTruncateVrfRing (ring ++ [e])) []

theorem ringAfter_concat (l : VrfRing Time) (e : VrfRingEntry Time) :
    ringAfter (l ++ [e]) = dedupSortTruncateVrfRing (ringAfter l ++ [e]) := by
  unfold ringAfter
  rw [List.foldl_concat]

theorem feed_concat (seals : List (SealRecord Time)) (r : SealRecord Time) :
    feed (seals ++ [r]) = (feed seals).registerSeal r.t r.recordId r.recordHash := by
  unfold feed run
  rw [List.map_append, List.foldl_append]
  rfl

namespace EpochState

theorem registerSeal_cases (s : EpochState Time) (t : ParsedEpochSeal Time) (recordId : Str)
    (recordHash : Bytes32) :
    s.registerSeal t recordId recordHash = (s.applyCanonicalSeal t recordId recordHash).1 ∨
      s.registerSeal t recordId recordHash = s.registerLosing t recordHash := by
  unfold registerSeal
  split_ifs with h
  · exact .inl rfl
  · exact .inr rfl

/-- Without pinned anchors a seal enters the ring, whether it becomes the tip or not. -/
theorem vrfRing_registerSeal {s : EpochState Time} (hs : s.chainAnchors = [])
    (t : ParsedEpochSeal Time) (recordId : Str) (recordHash : Bytes32) :
    (s.registerSeal t recordId recordHash).vrfRing t.zone =
      seeded (s.vrfRing t.zone) t recordHash := by
  rcases registerSeal_cases s t recordId recordHash with h | h
  · rw [h, vrfRing_applyCanonicalSeal, if_pos ⟨chainAnchorAdmits_of_nil hs _ _ _, rfl⟩]
  · rw [h, vrfRing_registerLosing, if_pos rfl]

end EpochState

theorem chainAnchors_feed (seals : List (SealRecord Time)) : (feed seals).chainAnchors = [] :=
  chainAnchors_run [] _

variable {seals : List (SealRecord Time)}

/-- The ring after seals of one zone that all have VRF outputs. -/
theorem vrfRing_feed {zone : ZoneId}
    (hzone : ∀ r ∈ seals, r.t.zone = zone) (hvrf : ∀ r ∈ seals, r.t.vrfOutput.isSome) :
    (feed seals).vrfRing zone = ringAfter (seals.map SealRecord.entry) := by
  induction seals using List.reverseRecOn with
  | nil => rfl
  | append_singleton seals r ih =>
    have hmem : r ∈ seals ++ [r] := List.mem_append_right _ (List.mem_singleton_self r)
    obtain ⟨vrf, hsome⟩ := Option.isSome_iff_exists.mp (hvrf r hmem)
    have ih := ih (fun x hx => hzone x (List.mem_append_left _ hx))
      fun x hx => hvrf x (List.mem_append_left _ hx)
    rw [feed_concat, ← hzone r hmem, EpochState.vrfRing_registerSeal (chainAnchors_feed seals),
      hzone r hmem, ih, List.map_append, List.map_singleton, ringAfter_concat]
    unfold seeded SealRecord.entry
    rw [hsome]
    rfl

/-- One entry after another, the ring is filled as `Ranking.fill` says. -/
theorem ringAfter_spec (hl : ranking.Distinct l.toFinset) :
    Sorted (ringAfter l) ∧
      (ringAfter l).toFinset = ranking.fill vrfHistoryPerZone ∅ l := by
  induction l using List.reverseRecOn with
  | nil => exact ⟨List.Pairwise.nil, rfl⟩
  | append_singleton l e ih =>
    rw [List.toFinset_append] at hl
    obtain ⟨-, ih⟩ := ih (hl.subset Finset.subset_union_left)
    have hfill : (ringAfter l ++ [e]).toFinset =
        insert e (ranking.fill vrfHistoryPerZone ∅ l) := by
      rw [List.toFinset_append, ih, Finset.union_comm]
      rfl
    have hsub : insert e (ranking.fill vrfHistoryPerZone ∅ l) ⊆ l.toFinset ∪ [e].toFinset := by
      refine Finset.insert_subset (by simp) ?_
      exact (Ranking.fill_subset (Finset.empty_subset _)
        fun x hx => List.mem_toFinset.mpr hx).trans Finset.subset_union_left
    rw [ringAfter_concat]
    refine ⟨sorted_dedupSortTruncate _, ?_⟩
    rw [dedupSortTruncate_toFinset (hfill ▸ hl.subset hsub), hfill, Ranking.fill_append]
    rfl

/-! ### Settled sets of seals -/

/-- Every seal of an epoch that the whole set drops ends before all that the whole set keeps. -/
def RingSettled (seals : List (SealRecord Time)) : Prop :=
  let kept := dedupSortTruncateVrfRing (seals.map SealRecord.entry)
  ∀ r ∈ seals, (∃ e ∈ kept, e.epoch = r.t.epochNumber) ∨ ∀ e ∈ kept, r.entry.key < e.key

instance (seals : List (SealRecord Time)) : Decidable (RingSettled seals) :=
  inferInstanceAs (Decidable (∀ r ∈ seals, _ ∨ _))

theorem distinct_entries (hdistinct : (seals.map SealRecord.recordHash).Nodup) :
    ranking.Distinct (seals.map SealRecord.entry).toFinset := by
  intro x hx y hy h
  obtain ⟨r, hr, rfl⟩ := List.mem_map.mp (List.mem_toFinset.mp hx)
  obtain ⟨q, hq, rfl⟩ := List.mem_map.mp (List.mem_toFinset.mp hy)
  rw [List.inj_on_of_nodup_map hdistinct hr hq h]

theorem ringSettled_iff (hdistinct : (seals.map SealRecord.recordHash).Nodup) :
    RingSettled seals ↔
      ranking.Settled vrfHistoryPerZone (seals.map SealRecord.entry).toFinset := by
  unfold RingSettled Ranking.Settled
  rw [← dedupSortTruncate_toFinset (distinct_entries hdistinct)]
  simp only [List.mem_toFinset, List.forall_mem_map]
  rfl

theorem vrfOutputAtOrBefore_eq (s : EpochState Time) (zone : ZoneId) (atTimestamp : Time) :
    s.vrfOutputAtOrBefore zone atTimestamp =
      (((s.vrfRing zone).reverse.find? (·.endTs ≤ atTimestamp)).map (·.vrf)) := by
  unfold EpochState.vrfOutputAtOrBefore EpochState.vrfRing Table.getD
  cases s.vrfHistory.lookup zone with
  | none => rfl
  | some ring => rfl

/-- In a settled set every order of arrival leaves what the whole set keeps. -/
theorem vrfRing_feed_of_settled {zone : ZoneId} {order : List (SealRecord Time)}
    (hzone : ∀ r ∈ seals, r.t.zone = zone) (hvrf : ∀ r ∈ seals, r.t.vrfOutput.isSome)
    (hdistinct : (seals.map SealRecord.recordHash).Nodup) (hsettled : RingSettled seals)
    (horder : order.Perm seals) :
    (feed order).vrfRing zone = dedupSortTruncateVrfRing (seals.map SealRecord.entry) := by
  have hentries := distinct_entries hdistinct
  have hmem : ∀ x, x ∈ order.map SealRecord.entry ↔ x ∈ (seals.map SealRecord.entry).toFinset :=
    fun x => (horder.map SealRecord.entry).mem_iff.trans List.mem_toFinset.symm
  have horder' : ranking.Distinct (order.map SealRecord.entry).toFinset :=
    hentries.subset fun x hx => (hmem x).mp (List.mem_toFinset.mp hx)
  rw [vrfRing_feed (fun r hr => hzone r (horder.mem_iff.mp hr))
    fun r hr => hvrf r (horder.mem_iff.mp hr)]
  refine (ringAfter_spec horder').1.eq_of_toFinset (sorted_dedupSortTruncate _) ?_
  rw [(ringAfter_spec horder').2, dedupSortTruncate_toFinset hentries]
  exact Ranking.fill_eq_keep hentries ((ringSettled_iff hdistinct).mp hsettled) hmem

/-- One more seal after a settled set. -/
theorem vrfRing_feed_concat {r : SealRecord Time}
    (hzone : ∀ q ∈ seals, q.t.zone = r.t.zone) (hvrf : ∀ q ∈ seals, q.t.vrfOutput.isSome)
    (hdistinct : (seals.map SealRecord.recordHash).Nodup) (hsettled : RingSettled seals) :
    (feed (seals ++ [r])).vrfRing r.t.zone =
      seeded (dedupSortTruncateVrfRing (seals.map SealRecord.entry)) r.t r.recordHash := by
  rw [feed_concat, EpochState.vrfRing_registerSeal (chainAnchors_feed seals),
    vrfRing_feed_of_settled hzone hvrf hdistinct hsettled (List.Perm.refl seals)]

/-- In a set that is not settled two orders of arrival leave different rings. -/
theorem exists_vrfRing_feed_ne {zone : ZoneId}
    (hzone : ∀ r ∈ seals, r.t.zone = zone) (hvrf : ∀ r ∈ seals, r.t.vrfOutput.isSome)
    (hdistinct : (seals.map SealRecord.recordHash).Nodup) (hunsettled : ¬ RingSettled seals) :
    ∃ first second : List (SealRecord Time), first.Perm seals ∧ second.Perm seals ∧
      (feed first).vrfRing zone ≠ (feed second).vrfRing zone := by
  have hentries := distinct_entries hdistinct
  have hnodup : (seals.map SealRecord.entry).Nodup :=
    List.Nodup.of_map VrfRingEntry.recordHash (by rwa [List.map_map])
  obtain ⟨l, l', hl, hl', hmem, hmem', hne⟩ :=
    Ranking.exists_fill_ne hentries (mt (ringSettled_iff hdistinct).mpr hunsettled)
  have hlift : ∀ {m : VrfRing Time}, m.Nodup →
      (∀ y, y ∈ m ↔ y ∈ (seals.map SealRecord.entry).toFinset) →
      ∃ order : List (SealRecord Time), order.Perm seals ∧ order.map SealRecord.entry = m :=
    fun hm h => List.exists_perm_map ((List.perm_ext_iff_of_nodup hm hnodup).mpr fun y =>
      (h y).trans List.mem_toFinset)
  obtain ⟨first, hfirst, rfl⟩ := hlift hl hmem
  obtain ⟨second, hsecond, rfl⟩ := hlift hl' hmem'
  refine ⟨first, second, hfirst, hsecond, fun heq => hne ?_⟩
  have hring : ∀ {order : List (SealRecord Time)}, order.Perm seals →
      ((feed order).vrfRing zone).toFinset =
        ranking.fill vrfHistoryPerZone ∅ (order.map SealRecord.entry) := by
    intro order horder
    rw [vrfRing_feed (fun r hr => hzone r (horder.mem_iff.mp hr))
      fun r hr => hvrf r (horder.mem_iff.mp hr)]
    refine (ringAfter_spec (hentries.subset fun x hx => ?_)).2
    rw [List.mem_toFinset] at hx ⊢
    exact (horder.map SealRecord.entry).mem_iff.mp hx
  rw [← hring hfirst, ← hring hsecond, heq]

/-- **All orders of arrival leave one ring, and one answer for every timestamp, exactly when
every seal of an epoch that the whole set drops ends before all that the whole set keeps.** -/
theorem vrfRing_order_iff (zone : ZoneId) (seals : List (SealRecord Time))
    (hzone : ∀ r ∈ seals, r.t.zone = zone) (hvrf : ∀ r ∈ seals, r.t.vrfOutput.isSome)
    (hdistinct : (seals.map SealRecord.recordHash).Nodup) :
    (∀ first second : List (SealRecord Time), first.Perm seals → second.Perm seals →
      (feed first).vrfRing zone = (feed second).vrfRing zone ∧
      ∀ atTimestamp, (feed first).vrfOutputAtOrBefore zone atTimestamp =
        (feed second).vrfOutputAtOrBefore zone atTimestamp) ↔
      RingSettled seals := by
  constructor
  · intro hall
    by_contra hunsettled
    obtain ⟨first, second, hfirst, hsecond, hne⟩ :=
      exists_vrfRing_feed_ne hzone hvrf hdistinct hunsettled
    exact hne (hall first second hfirst hsecond).1
  · intro hsettled first second hfirst hsecond
    have heq : (feed first).vrfRing zone = (feed second).vrfRing zone := by
      rw [vrfRing_feed_of_settled hzone hvrf hdistinct hsettled hfirst,
        vrfRing_feed_of_settled hzone hvrf hdistinct hsettled hsecond]
    refine ⟨heq, fun atTimestamp => ?_⟩
    rw [vrfOutputAtOrBefore_eq, vrfOutputAtOrBefore_eq, heq]

/-! ### A late rival -/

section Sample

/-- A seal of the root zone whose hash starts with a byte and whose output is its epoch. -/
def sampleSeal (epoch endTs : ℕ) (hash : UInt8) : SealRecord ℕ where
  t :=
    { zone := ⟨Record.ZoneId.defaultPath⟩
      epochNumber := epoch
      endTs := endTs
      vrfOutput := some (.filled hash 1) }
  recordId := .empty
  recordHash := .filled hash 0

/-- Sixty-four epochs, one seal each, the higher ones with the earlier ends. -/
def sixtyFour : List (SealRecord ℕ) :=
  (List.range 64).map fun i => sampleSeal (200 - i) (i + 101) (UInt8.ofNat (i + 10))

/-- The winner of epoch 65 ended before all others, its rival after all others. -/
def winner65 : SealRecord ℕ := sampleSeal 65 5 1

def rival65 : SealRecord ℕ := sampleSeal 65 1000 2

/-- Without the others, the winner and its rival leave one ring in both orders. -/
theorem vrfRing_order_iff_rivals :
    RingSettled [winner65, rival65] ∧
      (feed [winner65, rival65]).vrfRing winner65.t.zone =
        (feed [rival65, winner65]).vrfRing winner65.t.zone ∧
      ∀ atTimestamp, (feed [winner65, rival65]).vrfOutputAtOrBefore winner65.t.zone atTimestamp =
        (feed [rival65, winner65]).vrfOutputAtOrBefore winner65.t.zone atTimestamp := by
  have hsettled : RingSettled [winner65, rival65] := by decide +kernel
  exact ⟨hsettled, (vrfRing_order_iff winner65.t.zone [winner65, rival65] (by decide) (by decide)
    (by decide)).mpr hsettled _ _ (List.Perm.refl _) (List.Perm.swap _ _ _)⟩

theorem nodup_of_firstBytes {seals : List (SealRecord ℕ)}
    (h : (seals.map fun r => r.recordHash.data.head?).Nodup) :
    (seals.map SealRecord.recordHash).Nodup :=
  List.Nodup.of_map (fun hash : Bytes32 => hash.data.head?) (by rwa [List.map_map])

/-- **The rival seeds juries in one order of arrival and not in the other.** -/
theorem late_rival :
    (sixtyFour ++ [winner65] ++ [rival65]).Perm (rival65 :: sixtyFour ++ [winner65]) ∧
    (feed (sixtyFour ++ [winner65] ++ [rival65])).vrfOutputAtOrBefore rival65.t.zone 2000 =
      rival65.t.vrfOutput ∧
    (feed (rival65 :: sixtyFour ++ [winner65])).vrfOutputAtOrBefore rival65.t.zone 2000 =
      (sampleSeal 137 164 73).t.vrfOutput ∧
    rival65.t.vrfOutput ≠ (sampleSeal 137 164 73).t.vrfOutput := by
  refine ⟨List.perm_append_singleton _ _, ?_, ?_, by decide⟩
  -- the winner is dropped, so nothing is in the way of the rival
  · rw [vrfOutputAtOrBefore_eq, vrfRing_feed_concat (by decide +kernel) (by decide +kernel)
      (nodup_of_firstBytes (by decide +kernel)) (by decide +kernel)]
    decide +kernel
  -- the rival is replaced by the winner
  · rw [vrfOutputAtOrBefore_eq, show rival65.t.zone = winner65.t.zone from rfl,
      vrfRing_feed_concat (by decide +kernel) (by decide +kernel)
        (nodup_of_firstBytes (by decide +kernel)) (by decide +kernel)]
    decide +kernel

end Sample

end Epoch
end ElaraMesh
