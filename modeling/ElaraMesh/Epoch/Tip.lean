import ElaraMesh.Epoch.Step
import ElaraMesh.Smt.Hash

/-!
# The tip and the order of arrival

Epoch seals and escalation seals write the same tip, by different rules.  An epoch seal replaces
a tip of its own epoch only with a smaller hash; an escalation seal replaces it always.  So the
last escalation seal of the highest epoch wins over what came before it, and whether a rival of a
smaller hash comes before or after decides the tip, and with it the beacon of the next epoch.

All orders of arrival end with one tip exactly when every escalation seal of the highest epoch
has the smallest hash of that epoch.

## Main results

* `tip_order_iff` — **all orders of arrival end with one tip exactly for settled sets**.
-/

namespace ElaraMesh
namespace Epoch

open Record (Str ZoneId)
open Smt (Bytes32 Sha3 sha3_256)

namespace EpochState

variable {Time : Type}

def nextEpoch (s : EpochState Time) (zone : ZoneId) : ℕ :=
  match s.latestEpoch.lookup zone with
  | some n => n + 1
  | none => 0

/-- The hash of the last seal, zero before the first. -/
def previousSealHash (s : EpochState Time) (zone : ZoneId) : Bytes32 :=
  (s.latestSealHash.lookup zone).getD .zero

end EpochState

/-- The beacon that ranks the proposers of an epoch. -/
def chainedBeacon [Sha3] (prevEpochSealHash : Bytes32) (epochNumber : ℕ) (zone : ZoneId) : Bytes32 :=
  sha3_256 (prevEpochSealHash.data ++ Framing.bigEndian 8 epochNumber ++ zone.path)

def nextBeacon [Sha3] {Time : Type} (s : EpochState Time) (zone : ZoneId) : Bytes32 :=
  chainedBeacon (s.previousSealHash zone) (s.nextEpoch zone) zone

namespace Call

variable {Time : Type}

def zone : Call Time → ZoneId
  | registerSeal t _ _ => t.zone
  | registerSealWithReconcile t _ _ _ _ => t.zone
  | promoteOrphanToCanonical t _ _ => t.zone
  | registerGlobalSeal t _ _ => t.stuckZone

def epoch : Call Time → ℕ
  | registerSeal t _ _ => t.epochNumber
  | registerSealWithReconcile t _ _ _ _ => t.epochNumber
  | promoteOrphanToCanonical t _ _ => t.epochNumber
  | registerGlobalSeal t _ _ => t.stuckEpoch

def recordId : Call Time → Str
  | registerSeal _ recordId _ => recordId
  | registerSealWithReconcile _ recordId _ _ _ => recordId
  | promoteOrphanToCanonical _ recordId _ => recordId
  | registerGlobalSeal _ recordId _ => recordId

def recordHash : Call Time → Bytes32
  | registerSeal _ _ recordHash => recordHash
  | registerSealWithReconcile _ _ recordHash _ _ => recordHash
  | promoteOrphanToCanonical _ _ recordHash => recordHash
  | registerGlobalSeal _ _ recordHash => recordHash

/-- The seal is an escalation seal. -/
def isGlobal : Call Time → Bool
  | registerGlobalSeal _ _ _ => true
  | _ => false

/-- The seal goes through `registerSeal` or `registerGlobalSeal`. -/
def isPlain : Call Time → Bool
  | registerSeal _ _ _ => true
  | registerGlobalSeal _ _ _ => true
  | _ => false

def Replaces (c tip : Call Time) : Prop :=
  tip.epoch < c.epoch ∨ tip.epoch = c.epoch ∧ (c.isGlobal ∨ c.recordHash < tip.recordHash)

instance (c tip : Call Time) : Decidable (c.Replaces tip) := by
  unfold Replaces
  infer_instance

end Call

variable {Time : Type}

/-- The tip after one more seal. -/
def takeTip (tip : Option (Call Time)) (c : Call Time) : Option (Call Time) :=
  match tip with
  | none => some c
  | some old => if c.Replaces old then some c else some old

/-- The tip after seals in an order of arrival. -/
def tipAfter (calls : List (Call Time)) : Option (Call Time) := calls.foldl takeTip none

/-- The tip of a zone is a seal, or there is none. -/
structure HasTip (s : EpochState Time) (zone : ZoneId) (tip : Option (Call Time)) : Prop where
  epoch : s.latestEpoch.lookup zone = tip.map Call.epoch
  recordId : s.latestSealId.lookup zone = tip.map Call.recordId
  recordHash : s.latestSealHash.lookup zone = tip.map Call.recordHash

theorem takeTip_eq (tip : Option (Call Time)) (c : Call Time) :
    takeTip tip c = if ∀ old ∈ tip, c.Replaces old then some c else tip := by
  cases tip with
  | none => exact (if_pos fun old h => nomatch h).symm
  | some old => simp [takeTip]

/-! ### Settled sets -/

/-- Every escalation seal of the highest epoch has the smallest hash of that epoch. -/
def TipSettled (calls : List (Call Time)) : Prop :=
  ∀ g ∈ calls, g.isGlobal → (∀ c ∈ calls, c.epoch ≤ g.epoch) →
    ∀ c ∈ calls, c.epoch = g.epoch → g.recordHash ≤ c.recordHash

instance (calls : List (Call Time)) : Decidable (TipSettled calls) := by
  unfold TipSettled
  infer_instance

/-- A seal of the highest epoch and there of the smallest hash. -/
structure Leads (m : Call Time) (calls : List (Call Time)) : Prop where
  mem : m ∈ calls
  first : ∀ c ∈ calls, c.epoch < m.epoch ∨ c.epoch = m.epoch ∧ m.recordHash ≤ c.recordHash

theorem exists_leads {calls : List (Call Time)} (h : calls ≠ []) : ∃ m, Leads m calls := by
  induction calls with
  | nil => exact absurd rfl h
  | cons c calls ih =>
    by_cases hnil : calls = []
    · subst hnil
      exact ⟨c, List.mem_singleton_self c, fun c' hc' => .inr (by rw [List.mem_singleton.mp hc']; simp)⟩
    obtain ⟨m, hmem, hfirst⟩ := ih hnil
    by_cases hc : c.epoch < m.epoch ∨ c.epoch = m.epoch ∧ m.recordHash ≤ c.recordHash
    · refine ⟨m, List.mem_cons_of_mem c hmem, fun c' hc' => ?_⟩
      rcases List.mem_cons.mp hc' with rfl | hc'
      · exact hc
      · exact hfirst c' hc'
    · -- the head is ahead of the leader of the rest
      rw [not_or, not_lt, not_and, not_le] at hc
      refine ⟨c, List.mem_cons_self, fun c' hc' => ?_⟩
      rcases List.mem_cons.mp hc' with rfl | hc'
      · exact .inr ⟨rfl, le_rfl⟩
      rcases hfirst c' hc' with hlt | ⟨heq, hle⟩
      · exact .inl (hlt.trans_le hc.1)
      · rcases hc.1.lt_or_eq with hlt | hsame
        · exact .inl (heq ▸ hlt)
        · exact .inr ⟨heq.trans hsame, (hc.2 hsame.symm).le.trans hle⟩

theorem tipAfter_concat (calls : List (Call Time)) (c : Call Time) :
    tipAfter (calls ++ [c]) = takeTip (tipAfter calls) c := List.foldl_concat ..

theorem mem_of_tipAfter {calls : List (Call Time)} {m : Call Time}
    (h : tipAfter calls = some m) : m ∈ calls := by
  induction calls using List.reverseRecOn generalizing m with
  | nil => cases h
  | append_singleton calls c ih =>
    rw [tipAfter_concat] at h
    cases hold : tipAfter calls with
    | none =>
      rw [hold] at h
      exact Option.some.inj h ▸ List.mem_append_right _ (List.mem_singleton_self c)
    | some old =>
      rw [hold] at h
      change (if c.Replaces old then some c else some old) = some m at h
      split_ifs at h
      · exact Option.some.inj h ▸ List.mem_append_right _ (List.mem_singleton_self c)
      · exact List.mem_append_left _ (ih (hold.trans h))

/-- In a settled set the seal of the highest epoch and the smallest hash becomes and stays the
tip. -/
theorem tipAfter_of_leads {calls : List (Call Time)} {m : Call Time} (hm : Leads m calls)
    (hsettled : TipSettled calls) (hdistinct : (calls.map Call.recordHash).Nodup)
    {order : List (Call Time)} (horder : ∀ c ∈ order, c ∈ calls) (hmem : m ∈ order) :
    tipAfter order = some m := by
  induction order using List.reverseRecOn with
  | nil => exact absurd hmem List.not_mem_nil
  | append_singleton order c ih =>
    have hinit : ∀ c' ∈ order, c' ∈ calls := fun c' hc' => horder c' (List.mem_append_left _ hc')
    have hc : c ∈ calls := horder c (List.mem_append_right _ (List.mem_singleton_self c))
    rw [tipAfter_concat]
    rcases List.mem_append.mp hmem with hmem | hmem
    · rw [ih hinit hmem]
      change (if c.Replaces m then some c else some m) = some m
      split_ifs with hreplaces
      · -- only the leader itself replaces the leader
        have hfirst := hm.first c hc
        have hhash : c.recordHash = m.recordHash := by
          rcases hreplaces with hlt | ⟨heq, hglobal | hlt⟩
          · omega
          · refine le_antisymm (hsettled c hc hglobal (fun c' hc' => ?_) m hm.mem heq) ?_
            · rcases hm.first c' hc' with hlt | ⟨hsame, -⟩ <;> omega
            · exact (hfirst.resolve_left (by omega)).2
          · exact absurd (hfirst.resolve_left (by omega)).2 (not_le.mpr hlt)
        rw [List.inj_on_of_nodup_map hdistinct hc hm.mem hhash]
      · rfl
    · obtain rfl := List.mem_singleton.mp hmem
      cases hold : tipAfter order with
      | none => rfl
      | some old =>
        have hmemold := hinit old (mem_of_tipAfter hold)
        change (if m.Replaces old then some m else some old) = some m
        split_ifs with hreplaces
        · rfl
        · rcases hm.first old hmemold with hlt | ⟨heq, hle⟩
          · exact absurd (.inl hlt) hreplaces
          · have hhash : old.recordHash = m.recordHash :=
              le_antisymm (not_lt.mp fun hlt => hreplaces (.inr ⟨heq, .inr hlt⟩)) hle
            rw [List.inj_on_of_nodup_map hdistinct hmemold hc hhash]

/-- An escalation seal of the highest epoch that comes last is the tip. -/
theorem tipAfter_global_last {calls : List (Call Time)} {g : Call Time} (hg : g.isGlobal)
    (hmax : ∀ c ∈ calls, c.epoch ≤ g.epoch) : tipAfter (calls ++ [g]) = some g := by
  rw [tipAfter_concat, takeTip_eq]
  refine if_pos fun old hold => ?_
  rcases (hmax old (mem_of_tipAfter hold)).lt_or_eq with hlt | heq
  · exact .inl hlt
  · exact .inr ⟨heq, .inl hg⟩

/-- A rival of a smaller hash that comes last does not leave the tip to the seal it rivals. -/
theorem tipAfter_rival_last {calls : List (Call Time)} {g c : Call Time} (hepoch : c.epoch = g.epoch)
    (hlt : c.recordHash < g.recordHash) : tipAfter (calls ++ [c]) ≠ some g := by
  have hne : c ≠ g := fun h => lt_irrefl _ (h ▸ hlt)
  rw [tipAfter_concat, takeTip_eq]
  split_ifs with hreplaces
  · exact fun h => hne (Option.some.inj h)
  · intro hold
    refine hreplaces fun old hmem => ?_
    obtain rfl : old = g := Option.some.inj (hmem.symm.trans hold)
    exact .inr ⟨hepoch.symm, .inr hlt⟩

/-! ### Orders of arrival -/

variable {s : EpochState Time}

/-- The same tip gives the same beacon. -/
theorem nextBeacon_congr [Sha3] {s' : EpochState Time} {zone : ZoneId}
    (hepoch : s.latestEpoch.lookup zone = s'.latestEpoch.lookup zone)
    (hhash : s.latestSealHash.lookup zone = s'.latestSealHash.lookup zone) :
    nextBeacon s zone = nextBeacon s' zone := by
  unfold nextBeacon EpochState.previousSealHash EpochState.nextEpoch
  rw [hepoch, hhash]

theorem perm_last {calls : List (Call Time)} {c : Call Time} (h : c ∈ calls) :
    ∃ rest, (rest ++ [c]).Perm calls := by
  obtain ⟨before, after, rfl⟩ := List.append_of_mem h
  exact ⟨before ++ after, (List.perm_append_singleton _ _).trans List.perm_middle.symm⟩

/-- Two orders that end with different tips, in a set that is not settled. -/
theorem exists_tipAfter_ne {calls : List (Call Time)}
    (hdistinct : (calls.map Call.recordHash).Nodup) (hunsettled : ¬ TipSettled calls) :
    ∃ first second : List (Call Time), first.Perm calls ∧ second.Perm calls ∧
      (tipAfter first).map Call.recordHash ≠ (tipAfter second).map Call.recordHash := by
  unfold TipSettled at hunsettled
  push Not at hunsettled
  obtain ⟨g, hg, hglobal, hmax, c, hc, hepoch, hlt⟩ := hunsettled
  obtain ⟨rest, hrest⟩ := perm_last hg
  obtain ⟨rest', hrest'⟩ := perm_last hc
  refine ⟨rest ++ [g], rest' ++ [c], hrest, hrest', fun heq => ?_⟩
  rw [tipAfter_global_last hglobal fun c' hc' =>
    hmax c' (hrest.mem_iff.mp (List.mem_append_left _ hc'))] at heq
  obtain ⟨m, hm, hhash⟩ := Option.map_eq_some_iff.mp heq.symm
  have hmem : m ∈ calls := hrest'.mem_iff.mp (mem_of_tipAfter hm)
  rw [List.inj_on_of_nodup_map hdistinct hmem hg hhash] at hm
  exact tipAfter_rival_last hepoch hlt hm

/-- In a settled set all orders end with one tip. -/
theorem tipAfter_eq_of_settled {calls : List (Call Time)} (hsettled : TipSettled calls)
    (hdistinct : (calls.map Call.recordHash).Nodup) {first second : List (Call Time)}
    (hfirst : first.Perm calls) (hsecond : second.Perm calls) :
    tipAfter first = tipAfter second := by
  by_cases hnil : calls = []
  · subst hnil
    rw [hfirst.eq_nil, hsecond.eq_nil]
  · obtain ⟨m, hm⟩ := exists_leads hnil
    rw [tipAfter_of_leads hm hsettled hdistinct (fun c => hfirst.mem_iff.mp)
      (hfirst.mem_iff.mpr hm.mem), tipAfter_of_leads hm hsettled hdistinct
      (fun c => hsecond.mem_iff.mp) (hsecond.mem_iff.mpr hm.mem)]

/-! ### The tip of a run -/

theorem HasTip.setTip (s : EpochState Time) (c : Call Time) :
    HasTip (s.setTip c.zone c.epoch c.recordId c.recordHash) c.zone (some c) where
  epoch := AList.lookup_insert _
  recordId := AList.lookup_insert _
  recordHash := AList.lookup_insert _

theorem HasTip.congr {s' : EpochState Time} {zone : ZoneId} {tip : Option (Call Time)}
    (h : HasTip s zone tip) (hepoch : s'.latestEpoch = s.latestEpoch)
    (hid : s'.latestSealId = s.latestSealId) (hhash : s'.latestSealHash = s.latestSealHash) :
    HasTip s' zone tip :=
  ⟨by rw [hepoch, h.epoch], by rw [hid, h.recordId], by rw [hhash, h.recordHash]⟩

theorem HasTip.tip_eq {zone : ZoneId} {tip : Option (Call Time)}
    (h : HasTip s zone tip) : s.tip zone = (tip.map Call.epoch).getD 0 :=
  congrArg (·.getD 0) h.epoch

/-- An epoch seal is to become the tip when it replaces the one that is there. -/
theorem HasTip.shouldCanonicalize_iff {t : ParsedEpochSeal Time}
    {tip : Option (Call Time)} (h : HasTip s t.zone tip) (recordId : Str) (recordHash : Bytes32) :
    s.shouldCanonicalize t recordHash ↔
      ∀ old ∈ tip, (Call.registerSeal t recordId recordHash).Replaces old := by
  change (if s.tip t.zone < t.epochNumber then true
    else if t.epochNumber = s.tip t.zone then s.lexMinWins t.zone recordHash else false) = true ↔ _
  rw [h.tip_eq, EpochState.lexMinWins, h.recordHash]
  cases tip with
  | none =>
    simp only [Option.map_none, Option.getD_none, Option.not_mem_none, false_implies, implies_true,
      iff_true]
    split_ifs with hpos hzero
    · rfl
    · rfl
    · omega
  | some old =>
    simp only [Option.map_some, Option.getD_some, Option.mem_some_iff, forall_eq']
    change _ ↔ old.epoch < t.epochNumber ∨
      old.epoch = t.epochNumber ∧ (false = true ∨ recordHash < old.recordHash)
    split_ifs with hlt heq
    · simp [hlt]
    · simp [heq]
    · simp [hlt, Ne.symm heq]

theorem HasTip.registerGlobalSeal {t : ParsedGlobalQuorumSeal}
    {tip : Option (Call Time)} (h : HasTip s t.stuckZone tip) (hs : s.chainAnchors = [])
    (recordId : Str) (recordHash : Bytes32) :
    HasTip (s.registerGlobalSeal t recordId recordHash).1 t.stuckZone
      (takeTip tip (.registerGlobalSeal t recordId recordHash)) := by
  have hreplaces : s.tip t.stuckZone ≤ t.stuckEpoch ↔
      ∀ old ∈ tip, (Call.registerGlobalSeal t recordId recordHash).Replaces old := by
    rw [h.tip_eq]
    cases tip with
    | none => simp
    | some old =>
      simp only [Option.map_some, Option.getD_some, Option.mem_some_iff, forall_eq']
      change _ ↔ old.epoch < t.stuckEpoch ∨ old.epoch = t.stuckEpoch ∧ (true = true ∨ _)
      simp [le_iff_lt_or_eq]
  rw [takeTip_eq, EpochState.registerGlobalSeal,
    if_neg (not_not_intro (EpochState.chainAnchorAdmits_of_nil hs _ _ _))]
  change HasTip (if s.tip t.stuckZone ≤ t.stuckEpoch then _ else _ : EpochState Time × Bool).1 _ _
  by_cases hle : s.tip t.stuckZone ≤ t.stuckEpoch
  · rw [if_pos hle, if_pos (hreplaces.mp hle)]
    exact HasTip.setTip s (.registerGlobalSeal t recordId recordHash)
  · rw [if_neg hle, if_neg (mt hreplaces.mpr hle)]
    exact h

variable [LinearOrder Time]

theorem HasTip.registerSeal {t : ParsedEpochSeal Time}
    {tip : Option (Call Time)} (h : HasTip s t.zone tip) (hs : s.chainAnchors = [])
    (recordId : Str) (recordHash : Bytes32) :
    HasTip (s.registerSeal t recordId recordHash) t.zone
      (takeTip tip (.registerSeal t recordId recordHash)) := by
  rw [takeTip_eq, EpochState.registerSeal]
  by_cases hwins : s.shouldCanonicalize t recordHash
  · rw [if_pos hwins, if_pos ((h.shouldCanonicalize_iff recordId recordHash).mp hwins),
      applyCanonicalSeal_of_admits (EpochState.chainAnchorAdmits_of_nil hs _ _ _)]
    exact (HasTip.setTip s (.registerSeal t recordId recordHash)).congr
      (EpochState.seedVrfRing_latestEpoch _ t recordHash)
      (EpochState.seedVrfRing_latestSealId _ t recordHash)
      (EpochState.seedVrfRing_latestSealHash _ t recordHash)
  · rw [if_neg hwins, if_neg (mt (h.shouldCanonicalize_iff recordId recordHash).mpr hwins)]
    exact h.congr (EpochState.seedVrfRing_latestEpoch _ t recordHash)
      (EpochState.seedVrfRing_latestSealId _ t recordHash)
      (EpochState.seedVrfRing_latestSealHash _ t recordHash)

/-- **The tip after seals of a zone.** -/
theorem hasTip_run {zone : ZoneId} {calls : List (Call Time)}
    (hcalls : ∀ c ∈ calls, c.isPlain ∧ c.zone = zone) :
    HasTip (run [] calls) zone (tipAfter calls) := by
  induction calls using List.reverseRecOn with
  | nil => exact ⟨rfl, rfl, rfl⟩
  | append_singleton calls c ih =>
    have ih := ih fun c' hc' => hcalls c' (List.mem_append_left _ hc')
    obtain ⟨hplain, hzone⟩ := hcalls c (List.mem_append_right _ (List.mem_singleton_self c))
    have hs := chainAnchors_run [] calls
    have hrun : run [] (calls ++ [c]) = (run [] calls).step c := List.foldl_concat ..
    rw [tipAfter_concat, hrun]
    subst hzone
    cases c with
    | registerSeal t recordId recordHash => exact ih.registerSeal hs recordId recordHash
    | registerGlobalSeal t recordId recordHash => exact ih.registerGlobalSeal hs recordId recordHash
    | registerSealWithReconcile => exact absurd hplain Bool.false_ne_true
    | promoteOrphanToCanonical => exact absurd hplain Bool.false_ne_true

/-- **All orders of arrival end with one tip, and one beacon for the next epoch, exactly when
every escalation seal of the highest epoch has the smallest hash of that epoch.** -/
theorem tip_order_iff [Sha3] (zone : ZoneId) (calls : List (Call Time))
    (hcalls : ∀ c ∈ calls, c.isPlain ∧ c.zone = zone)
    (hdistinct : (calls.map Call.recordHash).Nodup) :
    (∀ first second : List (Call Time), first.Perm calls → second.Perm calls →
      (run [] first).latestEpoch.lookup zone = (run [] second).latestEpoch.lookup zone ∧
      (run [] first).latestSealId.lookup zone = (run [] second).latestSealId.lookup zone ∧
      (run [] first).latestSealHash.lookup zone = (run [] second).latestSealHash.lookup zone ∧
      nextBeacon (run [] first) zone = nextBeacon (run [] second) zone) ↔
      TipSettled calls := by
  have htip : ∀ {order : List (Call Time)}, order.Perm calls →
      HasTip (run [] order) zone (tipAfter order) := fun horder =>
    hasTip_run fun c hc => hcalls c (horder.mem_iff.mp hc)
  constructor
  · intro hall
    by_contra hunsettled
    obtain ⟨first, second, hfirst, hsecond, hne⟩ := exists_tipAfter_ne hdistinct hunsettled
    obtain ⟨-, -, hhash, -⟩ := hall first second hfirst hsecond
    rw [(htip hfirst).recordHash, (htip hsecond).recordHash] at hhash
    exact hne hhash
  · intro hsettled first second hfirst hsecond
    have heq := tipAfter_eq_of_settled hsettled hdistinct hfirst hsecond
    have hepoch : (run [] first).latestEpoch.lookup zone =
        (run [] second).latestEpoch.lookup zone := by
      rw [(htip hfirst).epoch, (htip hsecond).epoch, heq]
    have hhash : (run [] first).latestSealHash.lookup zone =
        (run [] second).latestSealHash.lookup zone := by
      rw [(htip hfirst).recordHash, (htip hsecond).recordHash, heq]
    refine ⟨hepoch, ?_, hhash, nextBeacon_congr hepoch hhash⟩
    rw [(htip hfirst).recordId, (htip hsecond).recordId, heq]

section Sample

attribute [local instance] Smt.guardedSha3

/-- An epoch seal and an escalation seal of one epoch, the escalation with the larger hash. -/
def zoneCall : Call ℕ :=
  .registerSeal ⟨⟨ZoneId.defaultPath⟩, 5, 5, none⟩ (.text "zone")
    (.filled 1 0)

def globalCall : Call ℕ :=
  .registerGlobalSeal ⟨⟨ZoneId.defaultPath⟩, 5⟩ (.text "global") (.filled 2 0)

theorem tip_order_iff_pair :
    (∀ first second : List (Call ℕ), first.Perm [zoneCall, globalCall] →
      second.Perm [zoneCall, globalCall] →
      (run [] first).latestEpoch.lookup ⟨ZoneId.defaultPath⟩ =
        (run [] second).latestEpoch.lookup ⟨ZoneId.defaultPath⟩ ∧
      (run [] first).latestSealId.lookup ⟨ZoneId.defaultPath⟩ =
        (run [] second).latestSealId.lookup ⟨ZoneId.defaultPath⟩ ∧
      (run [] first).latestSealHash.lookup ⟨ZoneId.defaultPath⟩ =
        (run [] second).latestSealHash.lookup ⟨ZoneId.defaultPath⟩ ∧
      nextBeacon (run [] first) ⟨ZoneId.defaultPath⟩ =
        nextBeacon (run [] second) ⟨ZoneId.defaultPath⟩) ↔
      TipSettled [zoneCall, globalCall] :=
  tip_order_iff ⟨ZoneId.defaultPath⟩ [zoneCall, globalCall] (by decide) (by decide)

/-- **The escalation seal is the tip when it comes last, and not when it comes first.** -/
theorem escalation_last :
    [zoneCall, globalCall].Perm [globalCall, zoneCall] ∧
    (run [] [zoneCall, globalCall]).latestSealHash.lookup ⟨ZoneId.defaultPath⟩ =
      some globalCall.recordHash ∧
    (run [] [globalCall, zoneCall]).latestSealHash.lookup ⟨ZoneId.defaultPath⟩ =
      some zoneCall.recordHash ∧
    globalCall.recordHash ≠ zoneCall.recordHash :=
  ⟨List.Perm.swap _ _ _, by decide +kernel, by decide +kernel, by decide⟩

end Sample

end Epoch
end ElaraMesh
