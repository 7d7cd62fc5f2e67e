import ElaraMesh.Epoch.Ring
import ElaraMesh.Lib.Runs

/-!
# The chain-anchor fence

A pinned anchor fixes the seal hash of an epoch of a zone.  Every path to the tip asks it, so a
seal that contradicts it never becomes the tip.  The ring is another matter: a seal that loses
against the tip, because it is late or because its hash is larger, goes into the ring without
being asked.  There it stays unless the ring has a smaller hash for its epoch or 64 later ends.

## Main results

* `tip_admitted_run` — no tip ever contradicts a pinned anchor.
* `fenced_iff` — **the fence holds in every state of a run exactly when no seal slips in**.
-/

namespace ElaraMesh
namespace Epoch

open Record (Str ZoneId)
open Smt (Bytes32)

variable {Time : Type}

def Formed (ring : VrfRing Time) : Prop := ring.Pairwise fun a b => a.epoch ≠ b.epoch

variable {ring : VrfRing Time} {x : VrfRingEntry Time} {s s' : EpochState Time}

theorem Formed.eq_of_epoch (h : Formed ring) {y : VrfRingEntry Time}
    (hx : x ∈ ring) (hy : y ∈ ring) (hepoch : x.epoch = y.epoch) : x = y := by
  have : Std.Symm fun a b : VrfRingEntry Time => a.epoch ≠ b.epoch := ⟨fun _ _ hne => hne.symm⟩
  by_contra hne
  exact List.Pairwise.forall h hx hy hne hepoch

/-- In a ring with one entry for each epoch all entries are chosen. -/
theorem Formed.get?_dedupByEpoch_iff (h : Formed ring)
    (y : VrfRingEntry Time) : (dedupByEpoch ring).get? y.epoch = some y ↔ y ∈ ring := by
  constructor
  · exact fun hget => ((get?_dedupByEpoch ring y.epoch).1 y hget).1
  · intro hy
    cases hget : (dedupByEpoch ring).get? y.epoch with
    | none => exact absurd rfl ((get?_dedupByEpoch ring y.epoch).2 hget y hy)
    | some w =>
      obtain ⟨hw, hepoch, -⟩ := (get?_dedupByEpoch ring y.epoch).1 w hget
      rw [h.eq_of_epoch hw hy hepoch]

/-- What is chosen for an epoch when an entry is added. -/
theorem get?_dedupByEpoch_concat (ring : VrfRing Time) (x : VrfRingEntry Time) (k : ℕ) :
    (dedupByEpoch (ring ++ [x])).get? k =
      if k = x.epoch then some (((dedupByEpoch ring).get? x.epoch).elim x x.better)
      else (dedupByEpoch ring).get? k := by
  rw [dedupByEpoch_concat, OrderedMap.get?_upsert]

/-- A new entry is chosen when it has a smaller hash than those of its epoch. -/
theorem chosen_iff (hnew : x ∉ ring) :
    (dedupByEpoch (ring ++ [x])).get? x.epoch = some x ↔
      ∀ y ∈ ring, y.epoch = x.epoch → x.recordHash < y.recordHash := by
  rw [get?_dedupByEpoch_concat, if_pos rfl, Option.some.injEq]
  cases hget : (dedupByEpoch ring).get? x.epoch with
  | none =>
    have hnone := (get?_dedupByEpoch ring x.epoch).2 hget
    exact iff_of_true rfl fun y hy hepoch => absurd hepoch (hnone y hy)
  | some old =>
    obtain ⟨hold, hepoch, hmin⟩ := (get?_dedupByEpoch ring x.epoch).1 old hget
    change (if x.recordHash < old.recordHash then x else old) = x ↔ _
    split_ifs with hlt
    · exact iff_of_true rfl fun y hy hy' => hlt.trans_le (hmin y hy hy')
    · exact iff_of_false (fun heq => hnew (heq ▸ hold)) fun hall => hlt (hall old hold hepoch)

/-! ### The fence -/

/-- A seal hash agrees with the first pinned anchor of its zone and epoch. -/
abbrev Admits (s : EpochState Time) (zone : ZoneId) (epoch : ℕ) (recordHash : Bytes32) : Prop :=
  s.chainAnchorAdmits zone epoch recordHash = true

/-- The tips contradict no pinned anchor. -/
def TipsAdmitted (s : EpochState Time) : Prop :=
  ∀ zone e h, s.latestEpoch.lookup zone = some e → s.latestSealHash.lookup zone = some h →
    Admits s zone e h

theorem admits_congr (h : s'.chainAnchors = s.chainAnchors) (zone : ZoneId)
    (epoch : ℕ) (recordHash : Bytes32) :
    Admits s' zone epoch recordHash ↔ Admits s zone epoch recordHash := by
  unfold Admits EpochState.chainAnchorAdmits
  rw [h]

theorem TipsAdmitted.setTip (h : TipsAdmitted s) {zone : ZoneId} {epoch : ℕ}
    {recordHash : Bytes32} (hadmits : Admits s zone epoch recordHash) (recordId : Str) :
    TipsAdmitted (s.setTip zone epoch recordId recordHash) := by
  intro z e hash hepoch hhash
  change (s.latestEpoch.insert zone epoch).lookup z = some e at hepoch
  change (s.latestSealHash.insert zone recordHash).lookup z = some hash at hhash
  rw [Table.lookup_insert_eq] at hepoch hhash
  split_ifs at hepoch hhash with hz
  · rw [hz, ← Option.some.inj hepoch, ← Option.some.inj hhash]
    exact hadmits
  · exact h z e hash hepoch hhash

theorem TipsAdmitted.congr (h : TipsAdmitted s)
    (hepoch : s'.latestEpoch = s.latestEpoch) (hhash : s'.latestSealHash = s.latestSealHash)
    (hanchors : s'.chainAnchors = s.chainAnchors) : TipsAdmitted s' := by
  intro z e hash he hh
  rw [admits_congr hanchors]
  exact h z e hash (hepoch ▸ he) (hhash ▸ hh)

/-! ### What stays in a ring -/

variable [LinearOrder Time]

theorem formed_sortedEntries (l : VrfRing Time) : Formed (sortedEntries l) :=
  ((List.perm_insertionSort _ _).pairwise_iff fun h => h.symm).mpr (epochs_dedupByEpoch l)

theorem formed_dedupSortTruncate (l : VrfRing Time) : Formed (dedupSortTruncateVrfRing l) :=
  (formed_sortedEntries l).sublist (List.drop_sublist _ _)

theorem mem_of_mem_dedupSortTruncate {l : VrfRing Time} {y : VrfRingEntry Time}
    (h : y ∈ dedupSortTruncateVrfRing l) : y ∈ l := by
  have hvalue := mem_values_dedupByEpoch.mp (mem_dedupSortTruncate.mp h).1
  exact ((get?_dedupByEpoch l y.epoch).1 y hvalue).1

/-- A new entry stays in a ring: it has a smaller hash than those of its epoch, and fewer than 64
entries of other epochs end later. -/
def Enters (ring : VrfRing Time) (x : VrfRingEntry Time) : Prop :=
  (∀ y ∈ ring, y.epoch = x.epoch → x.recordHash < y.recordHash) ∧
    (ring.filter fun y => y.epoch ≠ x.epoch ∧ ¬ y.le x).length < vrfHistoryPerZone

/-- The entries that end later than a new one that was chosen. -/
theorem later_perm (hring : Formed ring)
    (hchosen : (dedupByEpoch (ring ++ [x])).get? x.epoch = some x) :
    ((sortedEntries (ring ++ [x])).filter fun y => x.key < y.key).Perm
      (ring.filter fun y => y.epoch ≠ x.epoch ∧ ¬ y.le x) := by
  have hnodup : ring.Nodup := List.Pairwise.imp (fun hne heq => hne (congrArg _ heq)) hring
  refine (List.perm_ext_iff_of_nodup ((sorted_sortedEntries _).nodup.filter _)
    (hnodup.filter _)).mpr fun y => ?_
  have hmem : y ∈ sortedEntries (ring ++ [x]) ↔
      (dedupByEpoch (ring ++ [x])).get? y.epoch = some y :=
    (List.mem_insertionSort _).trans mem_values_dedupByEpoch
  rw [List.mem_filter, List.mem_filter, hmem, decide_eq_true_iff, decide_eq_true_iff,
    VrfRingEntry.le_iff, not_le]
  by_cases hepoch : y.epoch = x.epoch
  · -- the entry of that epoch is the new one itself
    refine iff_of_false (fun h => ?_) fun h => h.2.1 hepoch
    rw [hepoch, hchosen, Option.some.injEq] at h
    exact lt_irrefl _ (h.1 ▸ h.2)
  · rw [get?_dedupByEpoch_concat, if_neg hepoch, hring.get?_dedupByEpoch_iff]
    simp [hepoch]

/-- **Which entry stays.** -/
theorem mem_dedupSortTruncate_concat (hring : Formed ring) (hnew : x ∉ ring) :
    x ∈ dedupSortTruncateVrfRing (ring ++ [x]) ↔ Enters ring x := by
  rw [mem_dedupSortTruncate, mem_values_dedupByEpoch, Enters, ← chosen_iff hnew]
  refine and_congr_right fun hchosen => ?_
  rw [(later_perm hring hchosen).length_eq]

/-! ### Tips and rings -/

/-- Neither a tip nor an entry of a ring contradicts a pinned anchor. -/
structure Fenced (s : EpochState Time) : Prop where
  tips : TipsAdmitted s
  rings : ∀ zone, ∀ x ∈ s.vrfRing zone, Admits s zone x.epoch x.recordHash

/-- A seal that contradicts a pinned anchor loses against the tip and enters the ring. -/
def Slips (s : EpochState Time) (c : Call Time) : Prop :=
  s.Loses c ∧ ∃ t ∈ s.registered c, ∃ vrf ∈ t.1.vrfOutput,
    ¬ Admits s t.1.zone t.1.epochNumber t.2 ∧
    Enters (s.vrfRing t.1.zone) (ringEntry t.1 vrf t.2)

/-- Every path to the tip asks the anchors. -/
theorem Outcome.tipsAdmitted {c : Call Time} (houtcome : Outcome s c s')
    (h : TipsAdmitted s) : TipsAdmitted s' := by
  cases houtcome with
  | refused => exact h
  | again => exact h
  | idle => exact h
  | canonical siblings hregistered hepoch hadmits _ =>
    exact (h.setTip hadmits _).congr (EpochState.seedVrfRing_latestEpoch _ _ _)
      (EpochState.seedVrfRing_latestSealHash _ _ _) (EpochState.seedVrfRing_chainAnchors _ _ _)
  | losing siblings hregistered hepoch hloses =>
    exact h.congr (EpochState.seedVrfRing_latestEpoch _ _ _)
      (EpochState.seedVrfRing_latestSealHash _ _ _) (EpochState.seedVrfRing_chainAnchors _ _ _)
  | escalated hepoch hadmits => exact h.setTip hadmits _

/-- **No tip ever contradicts a pinned anchor.** -/
theorem tip_admitted_run (chainAnchors : List (List UInt8 × ℕ × Bytes32))
    (calls : List (Call Time)) : TipsAdmitted (run chainAnchors calls) :=
  run_induction (fun _ _ _ h => nomatch h) fun s c _ h => (step_outcome s c).tipsAdmitted h

/-! ### The rings -/

def RingsFormed (s : EpochState Time) : Prop := ∀ zone, Formed (s.vrfRing zone)

theorem formed_seeded (h : Formed ring) (t : ParsedEpochSeal Time)
    (recordHash : Bytes32) : Formed (seeded ring t recordHash) := by
  unfold seeded
  cases t.vrfOutput with
  | none => exact h
  | some vrf => exact formed_dedupSortTruncate _

/-- What a ring has after a seal: what it had, and the entry of the seal. -/
theorem mem_seeded {t : ParsedEpochSeal Time} {recordHash : Bytes32}
    (h : x ∈ seeded ring t recordHash) :
    x ∈ ring ∨ x.epoch = t.epochNumber ∧ x.recordHash = recordHash := by
  unfold seeded at h
  cases hvrf : t.vrfOutput with
  | none =>
    rw [hvrf] at h
    exact .inl h
  | some vrf =>
    rw [hvrf] at h
    rcases List.mem_append.mp (mem_of_mem_dedupSortTruncate h) with hmem | hmem
    · exact .inl hmem
    · rw [List.mem_singleton.mp hmem]
      exact .inr ⟨rfl, rfl⟩

theorem Outcome.vrfRing_cases {c : Call Time} (houtcome : Outcome s c s') :
    s'.vrfRing = s.vrfRing ∧ ¬ s.Loses c ∨
    ∃ t recordHash, s.registered c = some (t, recordHash) ∧
      (∀ zone, s'.vrfRing zone =
        if zone = t.zone then seeded (s.vrfRing zone) t recordHash else s.vrfRing zone) ∧
      (s.Loses c ∨ Admits s t.zone t.epochNumber recordHash ∧ ¬ s.Loses c) := by
  cases houtcome with
  | refused _ _ hwins => exact .inl ⟨rfl, hwins⟩
  | again _ _ _ hwins => exact .inl ⟨rfl, hwins⟩
  | idle _ hwins => exact .inl ⟨rfl, hwins⟩
  | escalated => exact .inl ⟨rfl, id⟩
  | canonical siblings hregistered hepoch hadmits hwins =>
    exact .inr ⟨_, _, hregistered, EpochState.vrfRing_seedVrfRing _ _ _, .inr ⟨hadmits, hwins⟩⟩
  | losing siblings hregistered hepoch hloses =>
    exact .inr ⟨_, _, hregistered, EpochState.vrfRing_seedVrfRing _ _ _, .inl hloses⟩

theorem RingsFormed.step (h : RingsFormed s) (c : Call Time) :
    RingsFormed (s.step c) := by
  intro zone
  rcases (step_outcome s c).vrfRing_cases with ⟨hring, -⟩ | ⟨t, recordHash, -, hring, -⟩
  · rw [hring]
    exact h zone
  · rw [hring]
    split_ifs
    · exact formed_seeded (h zone) t recordHash
    · exact h zone

/-- One call: the fence stays exactly when no seal slips in. -/
theorem Fenced.step_iff (hformed : RingsFormed s) (h : Fenced s)
    (c : Call Time) : Fenced (s.step c) ↔ ¬ Slips s c := by
  have houtcome := step_outcome s c
  have hanchors := houtcome.chainAnchors_eq
  have htips := houtcome.tipsAdmitted h.tips
  rcases houtcome.vrfRing_cases with ⟨hring, hwins⟩ | ⟨t, recordHash, hregistered, hring, hcase⟩
  · refine iff_of_true ⟨htips, fun zone x hx => ?_⟩ fun hslips => hwins hslips.1
    rw [admits_congr hanchors]
    exact h.rings zone x (hring ▸ hx)
  · by_cases hadmits : Admits s t.zone t.epochNumber recordHash
    · refine iff_of_true ⟨htips, fun zone x hx => ?_⟩ ?_
      · rw [admits_congr hanchors]
        rw [hring] at hx
        split_ifs at hx with hz
        · rcases mem_seeded hx with hx | ⟨hepoch, hhash⟩
          · exact h.rings zone x hx
          · rw [hepoch, hhash, hz]
            exact hadmits
        · exact h.rings zone x hx
      · rintro ⟨-, p, hmem, vrf, -, hnot, -⟩
        rw [hregistered] at hmem
        obtain rfl : (t, recordHash) = p := Option.some.inj hmem
        exact hnot hadmits
    · have hloses : s.Loses c := hcase.resolve_right fun hand => hadmits hand.1
      constructor
      · -- the entry of the seal would be in the ring
        rintro hfenced ⟨-, p, hmem, vrf, hvrf, hnot, henters⟩
        rw [hregistered] at hmem
        obtain rfl : (t, recordHash) = p := Option.some.inj hmem
        have hnew : ringEntry t vrf recordHash ∉ s.vrfRing t.zone := fun hold =>
          hadmits (h.rings t.zone _ hold)
        have hin : ringEntry t vrf recordHash ∈ (s.step c).vrfRing t.zone := by
          rw [hring, if_pos rfl, seeded, Option.mem_def.mp hvrf]
          exact (mem_dedupSortTruncate_concat (hformed t.zone) hnew).mpr henters
        exact hadmits ((admits_congr hanchors _ _ _).mp (hfenced.rings t.zone _ hin))
      · intro hsafe
        refine ⟨htips, fun zone x hx => ?_⟩
        rw [admits_congr hanchors]
        rw [hring] at hx
        split_ifs at hx with hz
        · subst hz
          by_cases hold : x ∈ s.vrfRing t.zone
          · exact h.rings t.zone x hold
          · -- a new entry would be one that slipped in
            unfold seeded at hx
            cases hvrf : t.vrfOutput with
            | none =>
              rw [hvrf] at hx
              exact absurd hx hold
            | some vrf =>
              rw [hvrf] at hx
              obtain rfl : x = ringEntry t vrf recordHash :=
                List.mem_singleton.mp ((List.mem_append.mp
                  (mem_of_mem_dedupSortTruncate hx)).resolve_left hold)
              refine absurd ⟨hloses, (t, recordHash), hregistered, vrf, hvrf, hadmits, ?_⟩ hsafe
              exact (mem_dedupSortTruncate_concat (hformed t.zone) hold).mp hx
        · exact h.rings zone x hx

/-- **The fence holds in every state of a run exactly when no seal that contradicts an anchor
loses against the tip and enters the ring.** -/
theorem fenced_iff (chainAnchors : List (List UInt8 × ℕ × Bytes32)) (calls : List (Call Time)) :
    (∀ before, before <+: calls → Fenced (run chainAnchors before)) ↔
      ∀ before c, before ++ [c] <+: calls → ¬ Slips (run chainAnchors before) c := by
  have hformed : RingsFormed (.new chainAnchors : EpochState Time) := fun _ => List.Pairwise.nil
  have hfenced : Fenced (.new chainAnchors : EpochState Time) :=
    ⟨tip_admitted_run chainAnchors [], fun _ _ hx => absurd hx List.not_mem_nil⟩
  exact Runs.forall_prefix_iff (J := RingsFormed) (I := Fenced) (C := fun s c => ¬ Slips s c)
    (fun _ c hs => hs.step c) (fun _ c hs h => h.step_iff hs c) hformed hfenced calls

section Sample

/-- Epoch 5 of the root zone is pinned. -/
def pinnedFive : List (List UInt8 × ℕ × Bytes32) :=
  [(ZoneId.defaultPath, 5, ⟨9 :: List.replicate 31 0, rfl⟩)]

/-- A seal of the root zone with a VRF output. -/
def vrfSeal (epoch : ℕ) : ParsedEpochSeal ℕ := ⟨⟨ZoneId.defaultPath⟩, epoch, epoch, some .zero⟩

/-- The tip has passed the pinned epoch when the foreign seal arrives. -/
def foreignLate : List (Call ℕ) :=
  [.registerSeal (vrfSeal 6) (.text "six") ⟨7 :: List.replicate 31 0, rfl⟩,
    .registerSeal (vrfSeal 5) (.text "five") ⟨1 :: List.replicate 31 0, rfl⟩]

/-- **A late seal that contradicts the pinned hash seeds juries.** -/
theorem foreign_late :
    (run pinnedFive foreignLate).chainAnchorAdmits ⟨ZoneId.defaultPath⟩ 5
      ⟨1 :: List.replicate 31 0, rfl⟩ = false ∧
    ringEntry (vrfSeal 5) .zero ⟨1 :: List.replicate 31 0, rfl⟩ ∈
      (run pinnedFive foreignLate).vrfRing ⟨ZoneId.defaultPath⟩ := by
  decide +kernel

end Sample

end Epoch
end ElaraMesh
