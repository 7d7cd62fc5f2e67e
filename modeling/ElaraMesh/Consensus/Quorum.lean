import ElaraMesh.Consensus.Levels
import ElaraMesh.Ledger.Records

/-!
# Quorums

What `is_settled` says about the stake behind a record.  A record with the eligible stake
`e` settles with the attesting stake `quorum e`, two thirds of `e` as long as `2 * e` fits
a `u64`.  Hence two settled records of one creator have a third of the eligible stake in
common, as long as it does.

## Main results

* `isSettled_iff` — the settlement test in terms of `quorum`.
* `quorumsIntersect_iff` — two settled records share a third of the eligible stake exactly
  below `2 ^ 63`.
-/

namespace ElaraMesh.Consensus

open Record (Str ZoneId)
open Smt (Sha3)
open AWCConsensus

/-! ### The settlement test -/

/-- The least attesting stake that settles a record with this much eligible stake. -/
def quorum (eligible : ℕ) : ℕ := (min (eligible * 2) U64.max + 2) / 3

theorem twoThirdsMet_iff (attesting eligible : ℕ) :
    twoThirdsMet attesting eligible = true ↔ quorum eligible ≤ attesting := by
  unfold twoThirdsMet quorum U64.satMul
  rw [decide_eq_true_iff]
  omega

theorem quorum_mono {a b : ℕ} (h : a ≤ b) : quorum a ≤ quorum b := by
  unfold quorum
  omega

theorem quorum_pos {e : ℕ} (h : 0 < e) : 0 < quorum e := by
  unfold quorum U64.max
  omega

theorem isSettled_iff [Sha3] (s : AWCConsensus) (r : Str) :
    s.isSettled r = true ↔
      0 < s.eligibleStake r ∧ quorum (s.eligibleStake r) ≤ s.attestingStake r := by
  unfold isSettled
  split
  · next h => simp [h]
  · next h => rw [twoThirdsMet_iff, and_iff_right (Nat.pos_of_ne_zero h)]

/-! ### Stakes -/

/-- The stakes of the stakers; nobody without stake is listed. -/
structure Stakes where
  table : Table Str ℕ
  pos : ∀ {id stake}, table.lookup id = some stake → 0 < stake

namespace Stakes

def of (stakes : Stakes) (id : Str) : ℕ := stakes.table.getD id 0

def sum (stakes : Stakes) : ℕ := stakes.table.total fun _ stake => stake

def weight (stakes : Stakes) (ids : Finset Str) : ℕ := ∑ id ∈ ids, stakes.of id

def empty : Stakes := ⟨∅, fun h => by cases h⟩

/-- One more staker, if the stake is not zero. -/
def add (stakes : Stakes) (id : Str) (stake : ℕ) : Stakes :=
  if h : 0 < stake then
    { table := stakes.table.insert id stake
      pos := by
        intro k v hk
        rw [Table.lookup_insert_eq] at hk
        split at hk
        · cases hk; exact h
        · exact stakes.pos hk }
  else stakes

variable {id : Str} {stakes : Stakes} {l : List (Str × ℕ)}

theorem weight_add_le_sum (stakes : Stakes) {ids : Finset Str} (h : id ∉ ids) :
    stakes.of id + stakes.weight ids ≤ stakes.sum := by
  have hall := Table.sum_weight_le_total (w := fun v : ℕ => v) rfl stakes.table (insert id ids)
  rwa [Finset.sum_insert h] at hall

/-- Two sets and what they have in common. -/
theorem weight_add_weight (stakes : Stakes) (A B : Finset Str) :
    stakes.weight A + stakes.weight B = stakes.weight (A ∪ B) + stakes.weight (A ∩ B) :=
  (Finset.sum_union_inter).symm

theorem of_add (h : stakes.of id = 0) (stake : ℕ) (k : Str) :
    (stakes.add id stake).of k = if k = id then stake else stakes.of k := by
  unfold add
  split
  · exact Table.getD_insert _ _ _ _ _
  · next hz =>
    split
    · next hk => rw [hk, h, Nat.eq_zero_of_not_pos hz]
    · rfl

theorem notMem_of_eq_zero (h : stakes.of id = 0) :
    id ∉ stakes.table := by
  rw [← AList.lookup_eq_none]
  cases hl : stakes.table.lookup id with
  | none => rfl
  | some v =>
    have hv : stakes.of id = v := by rw [of, Table.getD, hl]; rfl
    exact absurd (stakes.pos hl) (by omega)

/-- A weight of nothing for no stake adds up over the stakers. -/
theorem total_add (h : stakes.of id = 0) (stake : ℕ) {w : Str → ℕ → ℕ} (hw : w id 0 = 0) :
    (stakes.add id stake).table.total w = w id stake + stakes.table.total w := by
  unfold add
  split
  · exact Table.total_insert_of_notMem (notMem_of_eq_zero h) stake w
  · next hz => rw [Nat.eq_zero_of_not_pos hz, hw, Nat.zero_add]

def ofList : List (Str × ℕ) → Stakes
  | [] => empty
  | (id, stake) :: rest => (ofList rest).add id stake

theorem of_ofList_notMem (h : id ∉ l.map Prod.fst) :
    (ofList l).of id = 0 := by
  induction l with
  | nil => rfl
  | cons p l ih =>
    rw [List.map_cons, List.mem_cons, not_or] at h
    unfold ofList add
    split
    · refine (Table.getD_insert _ _ _ _ _).trans ?_
      rw [if_neg h.1]
      exact ih h.2
    · exact ih h.2

theorem of_ofList (hl : (l.map Prod.fst).Nodup) {stake : ℕ}
    (h : (id, stake) ∈ l) : (ofList l).of id = stake := by
  induction l with
  | nil => cases h
  | cons p l ih =>
    obtain ⟨hp, hl⟩ := List.nodup_cons.mp hl
    rw [ofList, of_add (of_ofList_notMem hp)]
    rcases List.mem_cons.mp h with rfl | h
    · exact if_pos rfl
    · have hne : id ≠ p.1 := fun heq => hp (heq ▸ List.mem_map_of_mem h)
      rw [if_neg hne]
      exact ih hl h

theorem total_ofList (hl : (l.map Prod.fst).Nodup) {w : Str → ℕ → ℕ} (hw : ∀ id, w id 0 = 0) :
    (ofList l).table.total w = (l.map fun p => w p.1 p.2).sum := by
  induction l with
  | nil => rfl
  | cons p l ih =>
    obtain ⟨hp, hl⟩ := List.nodup_cons.mp hl
    rw [ofList, total_add (of_ofList_notMem hp) _ (hw p.1), ih hl, List.map_cons, List.sum_cons]

end Stakes

/-! ### Accepted attestations -/

/-- The attestations of its record after an attestation was handed in. -/
def acceptedEntry (s : AWCConsensus) (a : Attestation) : List Attestation :=
  let entry := s.attestationsOf a.recordId
  if s.creatorIdentity.lookup a.recordId = some a.witnessHash then entry
  else if entry.any fun b => b.witnessHash = a.witnessHash then
    refreshStake a.witnessHash a.stake entry
  else entry ++ [a]

theorem attestationsOf_admitAttestation (s : AWCConsensus) (a : Attestation) (r : Str) :
    (s.admitAttestation a).1.attestationsOf r =
      if r = a.recordId then acceptedEntry s a else s.attestationsOf r := by
  unfold AWCConsensus.admitAttestation acceptedEntry
  dsimp only
  split
  · split
    · next hr => rw [hr]; rfl
    · rfl
  · split
    · exact Table.getD_insert _ _ _ _ _
    · exact Table.getD_insert _ _ _ _ _

/-- The attestations of a record that are accepted once its creator is known: one for
each witness, and none by the creator. -/
structure Accepted (creator : Str) (s : AWCConsensus) (r : Str) : Prop where
  creator_eq : s.creatorIdentity.lookup r = some creator
  nodup : ((s.attestationsOf r).map Attestation.witnessHash).Nodup
  no_self : creator ∉ (s.attestationsOf r).map Attestation.witnessHash

/-! ### Nodes that know the stakes -/

section Nodes

variable [Sha3]

/-- A node that knows the stakes of a zone without committee. -/
structure KnowsStakes (stakes : Stakes) (zone : ZoneId) (s : AWCConsensus) : Prop where
  no_committee : s.committeeStakes.lookup zone = none
  no_members : s.committeeMembers.lookup zone = none
  zone_stake : s.zoneStakes.getD zone 0 = stakes.sum
  stakers : ∀ id, s.stakerStakes.getD id 0 = stakes.of id

/-- A record of the zone, on a node that counts every attesting witness at its stake. -/
structure Registered (stakes : Stakes) (zone : ZoneId) (creator : Str) (s : AWCConsensus)
    (r : Str) : Prop extends KnowsStakes stakes zone s, Accepted creator s r where
  zone_eq : s.settlementZoneFor r = zone
  creator_stake : s.creatorStakes.getD r 0 = stakes.of creator
  counted : ∀ a ∈ s.attestationsOf r, a.stake = stakes.of a.witnessHash

def AWCConsensus.attesters (s : AWCConsensus) (r : Str) : Finset Str :=
  ((s.attestationsOf r).map Attestation.witnessHash).toFinset

namespace Registered

variable {stakes : Stakes} {zone : ZoneId} {creator : Str} {s : AWCConsensus} {r : Str}

theorem attestingStake_eq (h : Registered stakes zone creator s r) :
    s.attestingStake r = stakes.weight (s.attesters r) := by
  unfold attestingStake Stakes.weight attesters
  rw [List.sum_toFinset _ h.nodup, List.map_map]
  exact congrArg List.sum (List.map_congr_left h.counted)

theorem eligibleStake_eq (h : Registered stakes zone creator s r) :
    s.eligibleStake r = s.decayedZoneStake zone - stakes.of creator := by
  have hcreator : s.creatorStakeExcludedFromDenominator r zone = stakes.of creator := by
    unfold creatorStakeExcludedFromDenominator
    dsimp only
    rw [h.creator_stake, h.no_members]
    dsimp only
    split
    · next hz => exact hz.symm
    · rfl
  unfold eligibleStake settlementDenominator
  dsimp only
  rw [h.zone_eq, h.no_committee, hcreator]
  rfl

theorem creator_notMem (h : Registered stakes zone creator s r) : creator ∉ s.attesters r :=
  fun hc => h.no_self (List.mem_toFinset.mp hc)

end Registered

/-- One zone in which everybody's stake is registered. -/
def oneZone (stakes : Stakes) : AWCConsensus :=
  { AWCConsensus.new with
    zoneCount := 1
    zoneStakes := AList.singleton (zoneFromLegacy 0) stakes.sum
    stakerStakes := stakes.table }

/-- A record of a creator, attested by some witnesses at their stakes. -/
def withRecord (stakes : Stakes) (creator r : Str) (witnesses : List Str) (s : AWCConsensus) :
    AWCConsensus :=
  { s with
    attestations :=
      s.attestations.insert r (witnesses.map fun w => ⟨r, w, stakes.of w, F64.zero⟩)
    creatorIdentity := s.creatorIdentity.insert r creator
    creatorStakes :=
      if 0 < stakes.of creator then s.creatorStakes.insert r (stakes.of creator)
      else s.creatorStakes.erase r }

variable {s : AWCConsensus} {stakes : Stakes} {creator r : Str} {eligible : ℕ}

theorem settlementZoneFor_oneZone (hcount : s.zoneCount = 1)
    (hover : s.rotationZoneOverrides = ∅) (r : Str) :
    s.settlementZoneFor r = zoneFromLegacy 0 := by
  unfold settlementZoneFor zoneForRecord forRecordDynamic
  rw [hover, AList.lookup_empty, hcount]
  show zoneFromLegacy (_ % 1) = _
  rw [Nat.mod_one]

omit [Sha3] in
theorem knowsStakes_oneZone (stakes : Stakes) :
    KnowsStakes stakes (zoneFromLegacy 0) (oneZone stakes) where
  no_committee := rfl
  no_members := rfl
  zone_stake := by
    show Table.getD (AList.singleton (zoneFromLegacy 0) stakes.sum) _ 0 = _
    rw [← AList.insert_empty, Table.getD_insert, if_pos rfl]
  stakers _ := rfl

omit [Sha3] in
theorem KnowsStakes.withRecord {zone : ZoneId}
    (h : KnowsStakes stakes zone s) (creator r : Str) (witnesses : List Str) :
    KnowsStakes stakes zone (withRecord stakes creator r witnesses s) :=
  { h with }

theorem registered_withRecord {witnesses : List Str}
    (hnodup : witnesses.Nodup) (hself : creator ∉ witnesses)
    (hknows : KnowsStakes stakes (zoneFromLegacy 0) s) (hcount : s.zoneCount = 1)
    (hover : s.rotationZoneOverrides = ∅) :
    Registered stakes (zoneFromLegacy 0) creator (withRecord stakes creator r witnesses s) r := by
  have hatts : (withRecord stakes creator r witnesses s).attestationsOf r =
      witnesses.map fun w => ⟨r, w, stakes.of w, F64.zero⟩ := by
    unfold attestationsOf withRecord
    rw [Table.getD_insert, if_pos rfl]
  have hwitnesses : ((withRecord stakes creator r witnesses s).attestationsOf r).map
      Attestation.witnessHash = witnesses := by
    rw [hatts, List.map_map]
    exact List.map_id _
  refine { hknows with
    creator_eq := AList.lookup_insert _, nodup := ?_, no_self := ?_,
    zone_eq := settlementZoneFor_oneZone hcount hover r, creator_stake := ?_, counted := ?_ }
  · rw [hwitnesses]; exact hnodup
  · rw [hwitnesses]; exact hself
  · unfold withRecord
    dsimp only
    split
    · rw [Table.getD_insert, if_pos rfl]
    · next hz =>
      rw [Table.getD, AList.lookup_erase]
      exact (Nat.eq_zero_of_not_pos hz).symm
  · intro a ha
    rw [hatts] at ha
    obtain ⟨w, _, rfl⟩ := List.mem_map.mp ha
    rfl

/-- A record stays registered when another one is added. -/
theorem Registered.withRecord {zone : ZoneId} {r' : Str}
    (h : Registered stakes zone creator s r) (hne : r ≠ r') (creator' : Str)
    (witnesses : List Str) :
    Registered stakes zone creator (withRecord stakes creator' r' witnesses s) r := by
  have hatts : (Consensus.withRecord stakes creator' r' witnesses s).attestationsOf r =
      s.attestationsOf r := by
    unfold attestationsOf Consensus.withRecord
    rw [Table.getD_insert, if_neg hne]
  refine { h.toKnowsStakes with
    creator_eq := (AList.lookup_insert_ne hne).trans h.creator_eq, nodup := ?_, no_self := ?_,
    zone_eq := h.zone_eq, creator_stake := ?_, counted := ?_ }
  · rw [hatts]; exact h.nodup
  · rw [hatts]; exact h.no_self
  · rw [← h.creator_stake]
    unfold Consensus.withRecord Table.getD
    dsimp only
    split
    · rw [AList.lookup_insert_ne hne]
    · rw [AList.lookup_erase_ne hne]
  · rw [hatts]; exact h.counted

omit [Sha3] in
theorem attesters_withRecord (stakes : Stakes) (creator r : Str) (witnesses : List Str)
    (s : AWCConsensus) (q : Str) :
    (withRecord stakes creator r witnesses s).attesters q =
      if q = r then witnesses.toFinset else s.attesters q := by
  unfold attesters attestationsOf withRecord
  rw [Table.getD_insert]
  split
  · rw [List.map_map]
    exact congrArg List.toFinset (List.map_id _)
  · rfl

/-! ### Two records of one creator -/

/-- Two settled records of one creator share a third of the eligible stake. -/
def QuorumsIntersect (eligible : ℕ) : Prop :=
  ∀ (stakes : Stakes) (zone : ZoneId) (creator : Str) (s : AWCConsensus) (r₁ r₂ : Str),
    stakes.sum ≤ Ledger.maxSupply → stakes.sum - stakes.of creator = eligible →
    s.livenessDecayEnabled = false →
    Registered stakes zone creator s r₁ → Registered stakes zone creator s r₂ →
    s.isSettled r₁ = true → s.isSettled r₂ = true →
    eligible ≤ 3 * stakes.weight (s.attesters r₁ ∩ s.attesters r₂)

theorem Registered.isSettled_iff {zone : ZoneId} (h : Registered stakes zone creator s r)
    (hoff : s.livenessDecayEnabled = false) :
    s.isSettled r = true ↔ 0 < stakes.sum - stakes.of creator ∧
      quorum (stakes.sum - stakes.of creator) ≤ stakes.weight (s.attesters r) := by
  have hdecayed : s.decayedZoneStake zone = stakes.sum := by
    unfold decayedZoneStake
    dsimp only
    rw [h.zone_stake, hoff]
    rfl
  rw [Consensus.isSettled_iff, h.eligibleStake_eq, h.attestingStake_eq, hdecayed]

theorem quorumsIntersect_of_lt (h : eligible < 2 ^ 63) :
    QuorumsIntersect eligible := by
  intro stakes zone creator s r₁ r₂ _ heligible hoff h₁ h₂ hs₁ hs₂
  obtain ⟨_, hq₁⟩ := (h₁.isSettled_iff hoff).mp hs₁
  obtain ⟨_, hq₂⟩ := (h₂.isSettled_iff hoff).mp hs₂
  rw [heligible] at hq₁ hq₂
  have hsum := stakes.weight_add_weight (s.attesters r₁) (s.attesters r₂)
  have hnot : creator ∉ s.attesters r₁ ∪ s.attesters r₂ := by
    rw [Finset.mem_union, not_or]
    exact ⟨h₁.creator_notMem, h₂.creator_notMem⟩
  have hunion := stakes.weight_add_le_sum hnot
  -- below the bound the quorum is two thirds
  have hquorum : 2 * eligible ≤ 3 * quorum eligible := by
    unfold quorum U64.max
    omega
  omega

/-- The record and the identities of the constructions below. -/
def recordA : Str := .text "a"
def recordB : Str := .text "b"
def creatorK : Str := .text "k"
def witnessX : Str := .text "x"
def witnessY : Str := .text "y"
def witnessZ : Str := .text "z"

/-- Two witnesses that are in one quorum each, and one that is in both. -/
def overlapParts (eligible : ℕ) : List (Str × ℕ) :=
  [(witnessX, eligible - quorum eligible), (witnessY, eligible - quorum eligible),
    (witnessZ, 2 * quorum eligible - eligible)]

def overlapStakes (eligible : ℕ) : Stakes := Stakes.ofList (overlapParts eligible)

/-- A node with two records whose witnesses have only the third one in common. -/
def overlapNode (eligible : ℕ) : AWCConsensus :=
  withRecord (overlapStakes eligible) creatorK recordB [witnessY, witnessZ]
    (withRecord (overlapStakes eligible) creatorK recordA [witnessX, witnessZ]
      (oneZone (overlapStakes eligible)))

omit [Sha3] in
theorem nodup_overlapParts (eligible : ℕ) : ((overlapParts eligible).map Prod.fst).Nodup := by
  show [witnessX, witnessY, witnessZ].Nodup
  decide

omit [Sha3] in
theorem of_overlapStakes {stake : ℕ} {id : Str} (h : (id, stake) ∈ overlapParts eligible) :
    (overlapStakes eligible).of id = stake :=
  Stakes.of_ofList (nodup_overlapParts eligible) h

/-- From half of the range of a `u64` on, two quorums may share too little. -/
theorem not_quorumsIntersect (h : 2 ^ 63 ≤ eligible)
    (hmax : eligible ≤ Ledger.maxSupply) : ¬ QuorumsIntersect eligible := by
  intro hsafe
  -- the product saturates, so that a third of the range is a quorum
  have hquorum : quorum eligible = 6148914691236517205 := by
    unfold quorum U64.max
    omega
  have hbound : eligible ≤ 10000000000000000000 := hmax
  have hX : (overlapStakes eligible).of witnessX = eligible - quorum eligible :=
    of_overlapStakes (by simp [overlapParts])
  have hY : (overlapStakes eligible).of witnessY = eligible - quorum eligible :=
    of_overlapStakes (by simp [overlapParts])
  have hZ : (overlapStakes eligible).of witnessZ = 2 * quorum eligible - eligible :=
    of_overlapStakes (by simp [overlapParts])
  have hK : (overlapStakes eligible).of creatorK = 0 :=
    Stakes.of_ofList_notMem (show creatorK ∉ [witnessX, witnessY, witnessZ] by decide)
  have hsum : (overlapStakes eligible).sum = eligible := by
    refine (Stakes.total_ofList (nodup_overlapParts eligible) fun _ => rfl).trans ?_
    simp only [overlapParts, List.map_cons, List.map_nil, List.sum_cons, List.sum_nil]
    omega
  have hA : Registered (overlapStakes eligible) (zoneFromLegacy 0) creatorK (overlapNode eligible)
      recordA :=
    (registered_withRecord (by decide) (by decide) (knowsStakes_oneZone _) rfl rfl).withRecord
      (by decide) _ _
  have hB : Registered (overlapStakes eligible) (zoneFromLegacy 0) creatorK (overlapNode eligible)
      recordB :=
    registered_withRecord (by decide) (by decide) ((knowsStakes_oneZone _).withRecord _ _ _)
      rfl rfl
  have hattA : (overlapNode eligible).attesters recordA = {witnessX, witnessZ} := by
    unfold overlapNode
    rw [attesters_withRecord, attesters_withRecord, if_neg (by decide), if_pos rfl]
    decide
  have hattB : (overlapNode eligible).attesters recordB = {witnessY, witnessZ} := by
    unfold overlapNode
    rw [attesters_withRecord, if_pos rfl]
    decide
  have hsettled : ∀ {r : Str}, Registered (overlapStakes eligible) (zoneFromLegacy 0) creatorK
      (overlapNode eligible) r → (overlapStakes eligible).weight ((overlapNode eligible).attesters r)
        = quorum eligible → (overlapNode eligible).isSettled r = true := by
    intro r hr hweight
    refine (hr.isSettled_iff rfl).mpr ?_
    rw [hweight, hsum, hK, Nat.sub_zero]
    omega
  have hshared := hsafe _ _ _ _ _ _ (hsum.trans_le hmax) (by rw [hsum, hK]; rfl) rfl hA hB
    (hsettled hA (by
      rw [hattA, Stakes.weight, Finset.sum_pair (by decide), hX, hZ]
      omega))
    (hsettled hB (by
      rw [hattB, Stakes.weight, Finset.sum_pair (by decide), hY, hZ]
      omega))
  rw [hattA, hattB, show ({witnessX, witnessZ} ∩ {witnessY, witnessZ} : Finset Str) = {witnessZ}
    by decide, Stakes.weight, Finset.sum_singleton, hZ] at hshared
  omega

/-- Two settled records of one creator share a third of the eligible stake exactly as long
as twice the eligible stake fits a `u64`. -/
theorem quorumsIntersect_iff (eligible : ℕ) :
    QuorumsIntersect eligible ↔ eligible < 2 ^ 63 ∨ Ledger.maxSupply < eligible := by
  constructor
  · intro h
    by_contra hcon
    rw [not_or, Nat.not_lt, Nat.not_lt] at hcon
    exact not_quorumsIntersect hcon.1 hcon.2 h
  · rintro (h | h)
    · exact quorumsIntersect_of_lt h
    · -- there is no such stake
      intro stakes _ creator _ _ _ hsum heligible
      have hle : stakes.sum - stakes.of creator ≤ stakes.sum := Nat.sub_le _ _
      omega

end Nodes

section Sample

attribute [local instance] Smt.guardedSha3 Iteration.stored

/-- Stakes of 9.3 billion beats, and two records of a creator without stake. -/
def richEngine : AWCConsensus :=
  let s := registerStakes { AWCConsensus.new with zoneCount := 1 } 9300000000000000000
    [(witnessX, 3151085308763482795), (witnessY, 3151085308763482795),
      (witnessZ, 2997829382473034410)] 1
  ((s.registerCreatorStake recordA creatorK 0).1.registerCreatorStake recordB creatorK 0).1

/-- Each record is attested by one of the first two witnesses and by the third. -/
def richCalls : List Call :=
  [.addAttestation ⟨recordA, witnessX, 3151085308763482795, F64.zero⟩,
    .addAttestation ⟨recordA, witnessZ, 2997829382473034410, F64.zero⟩,
    .addAttestation ⟨recordB, witnessY, 3151085308763482795, F64.zero⟩,
    .addAttestation ⟨recordB, witnessZ, 2997829382473034410, F64.zero⟩]

/-- Both records settle, and the witness they share has less than a third. -/
theorem quorums_overlap_short :
    (richEngine.calls 1 richCalls).map (fun s =>
      (s.isSettled recordA, s.isSettled recordB, s.attesters recordA ∩ s.attesters recordB)) =
        some (true, true, {witnessZ}) ∧
      3 * 2997829382473034410 < 9300000000000000000 := by
  decide +kernel

end Sample

end ElaraMesh.Consensus
