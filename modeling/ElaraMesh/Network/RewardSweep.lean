import ElaraMesh.Lib.Sweep
import ElaraMesh.Lib.Draw
import ElaraMesh.Lib.Table
import ElaraMesh.Lib.F64
import ElaraMesh.Record.Identity

/-!
# The sweep for effects of finalization

When a record becomes final, its attestors are credited and rewarded.  A marker is kept in the store
until that is done, and a sweep takes up what was left behind: at most 512 markers, from the start of
the keys.  A marker stays if a reward fails, for example because the pool is empty, and is then among
the first ones of the next sweep as well.

## Main results

* `succeeds_process`, `mem_markers_process` — what the effects of one record do to the markers.
* `rids_reconcile` — a sweep clears the first markers whose effects can succeed.
* `sweepFair_iff` — when the sweep is fair.
-/

namespace ElaraMesh.Network

open Record (Str)

/-! ### The effects of a record -/

/-- The bit of a marker that is set when the attestors were credited. -/
def pendingEffectsReputationCredited : UInt8 := 0x01

/-- The largest number of markers of a sweep. -/
def maxPerSweep : ℕ := 512

structure EffectState where
  /-- From a record to the value of its marker. -/
  markers : Table Str (List UInt8)
  /-- The records that another task works on. -/
  inflight : Finset Str
  /-- The attestors that were credited, with the time. -/
  credits : List (List Str × F64)
  finalizedEvents : List Str
  /-- The number of markers of the last sweep. -/
  pendingFinalizationEffects : ℕ

/-- What the effects of the records meet, now and later. -/
structure Outcomes where
  durableAttestors : Str → List Str
  /-- Nothing if the clock is before the epoch. -/
  clockNowSecs : Option F64
  /-- How many rewards of a record fail. -/
  failed : Str → ℕ

section

variable (o : Outcomes)

/-- Credit the attestors, unless that was done; also tells whether it is done. -/
def creditReputation (s : EffectState) (rid : Str) (credited : Bool) : EffectState × Bool :=
  if credited then (s, true)
  else if o.durableAttestors rid = [] then (s, true)
  else
    match o.clockNowSecs with
    | some now =>
      ({ s with
        credits := s.credits ++ [(o.durableAttestors rid, now)]
        markers := s.markers.insert rid [pendingEffectsReputationCredited] }, true)
    | none => (s, false)

/-- The effects of a record.  Another task that works on the record is left alone; that this one
does is taken back at the end. -/
def processFinalizationEffect (s : EffectState) (rid : Str) : EffectState :=
  if rid ∈ s.inflight then s
  else
    match s.markers.lookup rid with
    | none => s
    | some [] => s
    | some (flags :: _) =>
      let r := creditReputation o s rid (flags &&& pendingEffectsReputationCredited ≠ 0)
      let s := { r.1 with finalizedEvents := r.1.finalizedEvents ++ [rid] }
      if r.2 ∧ o.failed rid = 0 then { s with markers := s.markers.erase rid } else s

/-- The records of a sweep, in the order of the keys. -/
def pendingRids (s : EffectState) : List Str := (Draw.sortBy id s.markers.keys).take maxPerSweep

def reconcilePendingEffects (s : EffectState) : EffectState :=
  let pending := pendingRids s
  pending.foldl (processFinalizationEffect o) { s with pendingFinalizationEffects := pending.length }

/-- Can the effects of a record that has a marker succeed? -/
def succeeds (s : EffectState) (rid : Str) : Bool :=
  match s.markers.lookup rid with
  | none => false
  | some [] => false
  | some (flags :: _) =>
    rid ∉ s.inflight ∧ o.failed rid = 0 ∧ (flags &&& pendingEffectsReputationCredited ≠ 0 ∨
      o.durableAttestors rid = [] ∨ o.clockNowSecs.isSome)

end

/-! ### What one record does to the markers -/

variable {o : Outcomes} {s : EffectState} {rid k : Str}

theorem inflight_credit (s : EffectState) (rid : Str) (credited : Bool) :
    (creditReputation o s rid credited).1.inflight = s.inflight := by
  unfold creditReputation
  split
  · rfl
  · split
    · rfl
    · split <;> rfl

theorem inflight_process (s : EffectState) (rid : Str) :
    (processFinalizationEffect o s rid).inflight = s.inflight := by
  unfold processFinalizationEffect
  split
  · rfl
  · split
    · rfl
    · rfl
    · dsimp only
      split
      · exact inflight_credit _ _ _
      · exact inflight_credit _ _ _

theorem lookup_credit_ne (h : k ≠ rid) (credited : Bool) :
    (creditReputation o s rid credited).1.markers.lookup k = s.markers.lookup k := by
  unfold creditReputation
  split
  · rfl
  · split
    · rfl
    · split
      · exact AList.lookup_insert_ne h
      · rfl

/-- The markers of other records are left alone. -/
theorem lookup_process_ne (h : k ≠ rid) :
    (processFinalizationEffect o s rid).markers.lookup k = s.markers.lookup k := by
  unfold processFinalizationEffect
  split
  · rfl
  · split
    · rfl
    · rfl
    · dsimp only
      split
      · exact (AList.lookup_erase_ne h).trans (lookup_credit_ne h _)
      · exact lookup_credit_ne h _

theorem succeeds_congr {s' : EffectState} (hlookup : s'.markers.lookup k = s.markers.lookup k)
    (hinflight : s'.inflight = s.inflight) : succeeds o s' k = succeeds o s k := by
  rw [succeeds, succeeds, hlookup, hinflight]

/-- Effects that can succeed are done, and the marker is cleared. -/
theorem lookup_process_of_succeeds (h : succeeds o s rid = true) :
    (processFinalizationEffect o s rid).markers.lookup rid = none := by
  unfold succeeds at h
  split at h
  · cases h
  · cases h
  · next flags rest hlookup =>
    obtain ⟨hfree, hfailed, hcredit⟩ := of_decide_eq_true h
    have hdone : (creditReputation o s rid
        (flags &&& pendingEffectsReputationCredited ≠ 0)).2 = true := by
      unfold creditReputation
      split
      · rfl
      · next hflags =>
        split
        · rfl
        · next hattestors =>
          obtain ⟨now, hnow⟩ := Option.isSome_iff_exists.mp
            ((hcredit.resolve_left (by simpa using hflags)).resolve_left hattestors)
          rw [hnow]
    unfold processFinalizationEffect
    rw [if_neg hfree, hlookup]
    dsimp only
    rw [if_pos ⟨hdone, hfailed⟩]
    exact AList.lookup_erase _ _

/-- Crediting changes the marker only if it is done. -/
theorem credit_cases (o : Outcomes) (s : EffectState) (rid : Str) (credited : Bool) :
    (creditReputation o s rid credited).1.markers = s.markers ∨
      (creditReputation o s rid credited).2 = true ∧
        (creditReputation o s rid credited).1.markers =
          s.markers.insert rid [pendingEffectsReputationCredited] := by
  unfold creditReputation
  split
  · exact Or.inl rfl
  · split
    · exact Or.inl rfl
    · split
      · exact Or.inr ⟨rfl, rfl⟩
      · exact Or.inl rfl

/-- Effects that are done although a reward fails leave a marker that cannot be cleared. -/
theorem succeeds_of_failed (h : o.failed rid ≠ 0) (s : EffectState) : succeeds o s rid = false := by
  unfold succeeds
  split
  · rfl
  · rfl
  · exact decide_eq_false fun hc => h hc.2.1

/-- Effects that cannot succeed cannot succeed later either, and the marker stays. -/
theorem process_of_not_succeeds (h : succeeds o s rid = false) :
    succeeds o (processFinalizationEffect o s rid) rid = false ∧
      (rid ∈ (processFinalizationEffect o s rid).markers ↔ rid ∈ s.markers) := by
  unfold processFinalizationEffect
  split
  · exact ⟨h, Iff.rfl⟩
  · next hfree =>
    split
    · exact ⟨h, Iff.rfl⟩
    · exact ⟨h, Iff.rfl⟩
    · next flags rest hlookup =>
      dsimp only
      have hmem : rid ∈ s.markers := AList.lookup_isSome.mp (by rw [hlookup]; rfl)
      by_cases hfailed : o.failed rid = 0
      · -- the attestors cannot be credited, so nothing is done
        have hcredit : creditReputation o s rid
            (flags &&& pendingEffectsReputationCredited ≠ 0) = (s, false) := by
          rw [succeeds, hlookup] at h
          have hnot := of_decide_eq_false h
          rw [and_iff_right hfree, and_iff_right hfailed, not_or, not_or] at hnot
          obtain ⟨hflags, hattestors, hclock⟩ := hnot
          rw [creditReputation, if_neg (by simpa using hflags), if_neg hattestors,
            Option.not_isSome_iff_eq_none.mp hclock]
        rw [hcredit, if_neg fun hc => Bool.false_ne_true hc.1]
        exact ⟨h, Iff.rfl⟩
      · rw [if_neg fun hc => hfailed hc.2]
        refine ⟨succeeds_of_failed hfailed _, iff_of_true ?_ hmem⟩
        rcases credit_cases o s rid (flags &&& pendingEffectsReputationCredited ≠ 0) with heq | ⟨-, heq⟩
        · exact heq ▸ hmem
        · rw [heq, AList.mem_insert]
          exact Or.inl rfl

theorem succeeds_process : succeeds o (processFinalizationEffect o s rid) k = true ↔
    succeeds o s k = true ∧ k ≠ rid := by
  by_cases hk : k = rid
  · subst hk
    refine iff_of_false ?_ fun hc => hc.2 rfl
    cases h : succeeds o s k with
    | true =>
      rw [succeeds, lookup_process_of_succeeds h]
      exact Bool.false_ne_true
    | false =>
      rw [(process_of_not_succeeds h).1]
      exact Bool.false_ne_true
  · rw [succeeds_congr (lookup_process_ne hk) (inflight_process s rid), and_iff_left hk]

theorem mem_markers_process : k ∈ (processFinalizationEffect o s rid).markers ↔
    k ∈ s.markers ∧ ¬ (k = rid ∧ succeeds o s k = true) := by
  by_cases hk : k = rid
  · subst hk
    cases h : succeeds o s k with
    | true =>
      refine iff_of_false (AList.lookup_eq_none.mp (lookup_process_of_succeeds h)) ?_
      exact fun hc => hc.2 ⟨rfl, rfl⟩
    | false =>
      rw [(process_of_not_succeeds h).2, and_iff_left fun hc => Bool.false_ne_true hc.2]
  · rw [← AList.lookup_isSome, lookup_process_ne hk, AList.lookup_isSome,
      and_iff_left fun hc => hk hc.1]

/-! ### A sweep -/

theorem succeeds_foldl (l : List Str) :
    succeeds o (l.foldl (processFinalizationEffect o) s) k = true ↔
      succeeds o s k = true ∧ k ∉ l := by
  induction l generalizing s with
  | nil => simp
  | cons rid l ih =>
    rw [List.foldl_cons, ih, succeeds_process, List.mem_cons, not_or, and_assoc]

theorem mem_markers_foldl (l : List Str) :
    k ∈ (l.foldl (processFinalizationEffect o) s).markers ↔
      k ∈ s.markers ∧ ¬ (k ∈ l ∧ succeeds o s k = true) := by
  induction l generalizing s with
  | nil => simp
  | cons rid l ih =>
    rw [List.foldl_cons, ih, mem_markers_process, succeeds_process, List.mem_cons]
    tauto

def EffectState.rids (s : EffectState) : Finset Str := s.markers.keys.toFinset

theorem mem_rids : k ∈ s.rids ↔ k ∈ s.markers := List.mem_toFinset

theorem mem_pendingRids : k ∈ pendingRids s ↔ k ∈ Sweep.first maxPerSweep s.rids := by
  have hkeyed : Draw.Keyed id s.markers.keys := by
    rw [Draw.Keyed, List.map_id]
    exact AList.keys_nodup _
  have hbefore : Sweep.before s.rids k =
      (s.markers.keys.filter fun j => id j < id k).toFinset := by
    ext j
    simp [Sweep.before, EffectState.rids]
  have hcard := List.toFinset_card_of_nodup
    ((AList.keys_nodup s.markers).filter fun j => id j < id k)
  rw [← hbefore] at hcard
  rw [pendingRids, Draw.mem_take_sortBy hkeyed, Sweep.mem_first, mem_rids, hcard]
  rfl

/-- A sweep clears the first markers whose effects can succeed. -/
theorem rids_reconcile (o : Outcomes) (s : EffectState) : (reconcilePendingEffects o s).rids =
    Sweep.sweep maxPerSweep (fun k => succeeds o s k = true) s.rids := by
  ext k
  rw [mem_rids, Sweep.mem_sweep, ← mem_pendingRids, mem_rids, reconcilePendingEffects,
    mem_markers_foldl, and_comm (b := k ∈ pendingRids s)]
  rfl

/-- What can succeed and is left can succeed later. -/
theorem succeeds_reconcile (h : k ∈ (reconcilePendingEffects o s).rids) :
    succeeds o (reconcilePendingEffects o s) k = true ↔ succeeds o s k = true := by
  have hleft := ((mem_markers_foldl _).mp (mem_rids.mp h)).2
  refine (succeeds_foldl _).trans ⟨And.left, fun hk => ⟨hk, fun hc => hleft ⟨hc, hk⟩⟩⟩

theorem rids_iterate (o : Outcomes) (s : EffectState) (n : ℕ) :
    ((reconcilePendingEffects o)^[n] s).rids =
      (Sweep.sweep maxPerSweep fun k => succeeds o s k = true)^[n] s.rids := by
  induction n generalizing s with
  | zero => rfl
  | succ n ih =>
    rw [Function.iterate_succ_apply, Function.iterate_succ_apply, ih, ← rids_reconcile]
    exact Sweep.iterate_congr (fun k hk => succeeds_reconcile hk) n

/-! ### Fairness -/

/-- Every marker whose effects can succeed is cleared after some sweeps. -/
def SweepFair (o : Outcomes) (s : EffectState) : Prop :=
  ∀ rid, succeeds o s rid = true → ∃ n, rid ∉ ((reconcilePendingEffects o)^[n] s).markers

/-- The records before a given one with a marker that is never cleared. -/
def failingBefore (o : Outcomes) (s : EffectState) (rid : Str) : Finset Str :=
  s.rids.filter fun k => k < rid ∧ succeeds o s k = false

theorem stuck_eq_failingBefore (rid : Str) :
    Sweep.stuck (fun k => succeeds o s k = true) s.rids rid = failingBefore o s rid := by
  ext k
  rw [Sweep.mem_stuck, failingBefore, Finset.mem_filter, and_assoc, Bool.not_eq_true]

theorem mem_markers_of_succeeds (h : succeeds o s rid = true) : rid ∈ s.markers := by
  rw [← AList.lookup_isSome]
  unfold succeeds at h
  split at h
  · cases h
  · cases h
  · next heq => rw [heq]; rfl

/-- **When the sweep is fair**: every marker whose effects can succeed is cleared after some sweeps
exactly if fewer than 512 markers whose effects cannot are before it. -/
theorem sweepFair_iff (o : Outcomes) (s : EffectState) :
    SweepFair o s ↔
      ∀ rid, succeeds o s rid = true → (failingBefore o s rid).card < maxPerSweep := by
  refine forall_congr' fun rid => forall_congr' fun hrid => ?_
  have hmem : rid ∈ s.rids := mem_rids.mpr (mem_markers_of_succeeds hrid)
  rw [← stuck_eq_failingBefore, ← Sweep.cleared_iff hmem hrid]
  refine exists_congr fun n => ?_
  rw [← rids_iterate, mem_rids]

/-! ### Starvation -/

section Samples

/-- A record with a number of four digits as its name. -/
def numbered (i : ℕ) : Str := Str.hex [UInt8.ofNat (i / 256), UInt8.ofNat i]

/-- A record with a name behind all numbers. -/
def lastRecord : Str := .text "z"

/-- Nothing was credited yet for 512 numbered records and one behind them. -/
def backlog : EffectState where
  markers := (((List.range 512).map fun i => (numbered i, [0])).foldl
    (fun t e => t.insert e.1 e.2) (∅ : Table Str (List UInt8))).insert lastRecord [0]
  inflight := ∅
  credits := []
  finalizedEvents := []
  pendingFinalizationEffects := 0

/-- The pool is empty: the reward of the one attestor of a record fails.  The last record has no
attestor. -/
def emptyPool : Outcomes where
  durableAttestors rid := if rid = lastRecord then [] else [.text "w"]
  clockNowSecs := some (.ofNat 100)
  failed rid := if rid = lastRecord then 0 else 1

theorem numbered_injOn : Set.InjOn numbered (Finset.range 512) := by
  intro i hi j hj h
  have hi : i < 512 := Finset.mem_range.mp hi
  have hj : j < 512 := Finset.mem_range.mp hj
  have hbytes := Str.hex_injective h
  simp only [List.cons.injEq, and_true, ← UInt8.toNat_inj, UInt8.toNat_ofNat'] at hbytes
  omega

theorem numbered_lt_lastRecord : ∀ i < 512, numbered i < lastRecord := by
  decide +kernel

theorem numbered_mem_backlog {i : ℕ} (h : i < 512) : numbered i ∈ backlog.markers := by
  rw [backlog, AList.mem_insert, ← AList.lookup_isSome, Option.isSome_iff_exists]
  refine .inr (Table.exists_lookup_foldl_insert (.inl ?_))
  rw [List.map_map]
  exact List.mem_map.mpr ⟨i, List.mem_range.mpr h, rfl⟩

theorem numbered_stuck {i : ℕ} (h : i < 512) : numbered i ∈
    Sweep.stuck (fun k => succeeds emptyPool backlog k = true) backlog.rids lastRecord := by
  have hlt := numbered_lt_lastRecord i h
  have hfailed : emptyPool.failed (numbered i) = 1 := if_neg hlt.ne
  rw [Sweep.mem_stuck, mem_rids, succeeds_of_failed (hfailed.trans_ne one_ne_zero)]
  exact ⟨⟨numbered_mem_backlog h, hlt⟩, Bool.false_ne_true⟩

/-- The effects of the last record would succeed, and no number of sweeps gets to them. -/
theorem sweep_starves_behind_failures : succeeds emptyPool backlog lastRecord = true ∧
    ∀ n, lastRecord ∈ ((reconcilePendingEffects emptyPool)^[n] backlog).markers := by
  have hlookup : backlog.markers.lookup lastRecord = some [0] := AList.lookup_insert _
  have hsucceeds : succeeds emptyPool backlog lastRecord = true := by
    rw [succeeds, hlookup]
    decide
  refine ⟨hsucceeds, fun n => ?_⟩
  rw [← mem_rids, rids_iterate]
  refine Sweep.mem_of_stuck (mem_rids.mpr (mem_markers_of_succeeds hsucceeds)) ?_ n
  -- all the numbered records are in front
  calc maxPerSweep = ((Finset.range 512).image numbered).card := by
        rw [Finset.card_image_of_injOn numbered_injOn, Finset.card_range, maxPerSweep]
    _ ≤ _ := Finset.card_le_card fun k hk => by
        obtain ⟨i, hi, rfl⟩ := Finset.mem_image.mp hk
        exact numbered_stuck (Finset.mem_range.mp hi)

end Samples

end ElaraMesh.Network
