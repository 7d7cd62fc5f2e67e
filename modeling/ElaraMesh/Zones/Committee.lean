import ElaraMesh.Lib.Draw
import ElaraMesh.Record.Text
import ElaraMesh.Smt.Hash
import Mathlib.Data.Prod.Lex

/-!
# Drawing the committee of a zone

Every candidate has a number, drawn from a seed and its identity; the number is divided by the
weight of the candidate, and those with the smallest quotients form the committee.  Quotients are
rounded down, so two candidates may have the same; then the identity decides.

## Main results

* `selectZoneCommittee_perm`, `selectCommitteeV2_perm` — the order of the candidates does not
  matter.
* `mem_selectZoneCommittee_raise`, `mem_selectCommitteeV2_raise` — more weight does no harm.
-/

namespace ElaraMesh.Zones

open Draw (sortBy Keyed)
open Framing (littleEndian ofBigEndian)
open Record (Str)
open Smt (Sha3 sha3_256)

structure Candidate where
  identityHash : Str
  weight : ℕ
  deriving DecidableEq

/-- A candidate with the number it drew. -/
structure Ticket where
  number : ℕ
  weight : ℕ
  identity : Str
  deriving DecidableEq

/-- Tickets are ordered by their quotients, and by identity where these are equal. -/
def Ticket.rank (t : Ticket) : ℕ ×ₗ Str := toLex (t.number / t.weight, t.identity)

def committeeDomain : List UInt8 := (Str.text "ELARA_ZONE_COMMITTEE_V1").bytes

/-- Up to this number of candidates nobody is left out. -/
def committeeSmallNetwork : ℕ := 10

section Selection

variable [Sha3]

def ticket (seed : List UInt8) (identity : Str) (weight : ℕ) : Ticket where
  number := ofBigEndian ((sha3_256 (seed ++ identity.bytes)).data.take 16)
  weight
  identity

def selectZoneCommittee (zonePath : Str) (epoch : UInt64) (eligible : List Candidate) (k : ℕ) :
    List Str :=
  if k = 0 ∨ eligible = [] then []
  else
    let seed := committeeDomain ++ zonePath.bytes ++ littleEndian 8 epoch.toNat
    let keyed := (eligible.filter fun c => 0 < c.weight).map fun c =>
      ticket seed c.identityHash c.weight
    if keyed = [] then [] else ((sortBy Ticket.rank keyed).take k).map Ticket.identity

/-- The seed is the output of the random function and the zone. -/
def selectCommitteeV2 (vrfOutput : List UInt8) (zonePath : Str) (eligible : List (Str × ℕ))
    (k : ℕ) : List (Str × ℕ) :=
  if k = 0 ∨ eligible = [] then []
  else if vrfOutput = [] then (sortBy Prod.fst eligible).take k
  else
    let nonZero := eligible.filter fun c => 0 < c.2
    if nonZero = [] then []
    else if nonZero.length ≤ committeeSmallNetwork then sortBy Prod.fst nonZero
    else
      let seed := committeeDomain ++ vrfOutput ++ zonePath.bytes
      let keyed := nonZero.map fun c => ticket seed c.1 c.2
      sortBy Prod.fst (((sortBy Ticket.rank keyed).take k).map fun t => (t.identity, t.weight))

/-! ### The order of the candidates -/

omit [Sha3] in
/-- Tickets of different candidates have different ranks. -/
theorem keyed_rank {l : List Ticket} (h : Keyed Ticket.identity l) : Keyed Ticket.rank l := by
  refine List.Nodup.of_map (fun rank : ℕ ×ₗ Str => (ofLex rank).2) ?_
  rw [List.map_map]
  exact h

theorem keyed_tickets (seed : List UInt8) {α : Type} {identity : α → Str} (weight : α → ℕ)
    {l : List α} (h : Keyed identity l) :
    Keyed Ticket.rank (l.map fun c => ticket seed (identity c) (weight c)) := by
  refine keyed_rank ?_
  unfold Keyed
  rw [List.map_map]
  exact h

variable {zonePath : Str} {k : ℕ} {c : Str × ℕ}

theorem selectZoneCommittee_perm {epoch : UInt64}
    {eligible eligible' : List Candidate} (h : Keyed Candidate.identityHash eligible)
    (hperm : eligible.Perm eligible') :
    selectZoneCommittee zonePath epoch eligible' k =
      selectZoneCommittee zonePath epoch eligible k := by
  have hkeyed := (hperm.filter fun c => 0 < c.weight).map fun c =>
    ticket (committeeDomain ++ zonePath.bytes ++ littleEndian 8 epoch.toNat) c.identityHash c.weight
  have hsorted := Draw.sortBy_congr (keyed_tickets _ Candidate.weight (h.filter _)) hkeyed
  unfold selectZoneCommittee
  simp only [← hsorted, ← List.length_eq_zero_iff, ← hperm.length_eq, ← hkeyed.length_eq]

theorem selectCommitteeV2_perm {vrfOutput : List UInt8}
    {eligible eligible' : List (Str × ℕ)} (h : Keyed Prod.fst eligible)
    (hperm : eligible.Perm eligible') :
    selectCommitteeV2 vrfOutput zonePath eligible' k =
      selectCommitteeV2 vrfOutput zonePath eligible k := by
  have hnonZero := hperm.filter fun c => 0 < c.2
  have hkeyed := hnonZero.map fun c =>
    ticket (committeeDomain ++ vrfOutput ++ zonePath.bytes) c.1 c.2
  have hsorted := Draw.sortBy_congr (keyed_tickets _ Prod.snd (h.filter _)) hkeyed
  have hall := Draw.sortBy_congr h hperm
  have hpositive := Draw.sortBy_congr (h.filter _) hnonZero
  unfold selectCommitteeV2
  simp only [← hsorted, ← hall, ← hpositive, ← List.length_eq_zero_iff, ← hperm.length_eq,
    ← hnonZero.length_eq]

/-! ### More weight -/

/-- Give a candidate another weight. -/
def reweigh (identity : Str) (weight : ℕ) (c : Str × ℕ) : Str × ℕ :=
  if c.1 = identity then (c.1, weight) else c

def Candidate.reweigh (identity : Str) (weight : ℕ) (c : Candidate) : Candidate :=
  if c.identityHash = identity then { c with weight } else c

def Ticket.reweigh (identity : Str) (weight : ℕ) (t : Ticket) : Ticket :=
  if t.identity = identity then { t with weight } else t

theorem ticket_reweigh (seed : List UInt8) (identity : Str) (weight : ℕ) (c : Str × ℕ) :
    ticket seed (reweigh identity weight c).1 (reweigh identity weight c).2 =
      (ticket seed c.1 c.2).reweigh identity weight := by
  unfold reweigh Ticket.reweigh
  split
  · next h => rw [if_pos (show (ticket seed c.1 c.2).identity = identity from h)]; rfl
  · next h => rw [if_neg (show ¬ (ticket seed c.1 c.2).identity = identity from h)]

omit [Sha3] in
@[simp] theorem identity_reweigh (identity : Str) (weight : ℕ) (t : Ticket) :
    (t.reweigh identity weight).identity = t.identity := by
  unfold Ticket.reweigh
  split <;> rfl

omit [Sha3] in
@[simp] theorem fst_reweigh (identity : Str) (weight : ℕ) (c : Str × ℕ) :
    (reweigh identity weight c).1 = c.1 := by
  unfold reweigh
  split <;> rfl

omit [Sha3] in
/-- With more weight a drawn ticket is drawn again. -/
theorem drawn_of_reweigh {l : List Ticket} (h : Keyed Ticket.identity l) {t : Ticket} {weight : ℕ}
    (ht : t ∈ (sortBy Ticket.rank l).take k) (hpos : 0 < t.weight) (hle : t.weight ≤ weight) :
    t.reweigh t.identity weight ∈
      (sortBy Ticket.rank (l.map (Ticket.reweigh t.identity weight))).take k := by
  have hkeyed : Keyed Ticket.identity (l.map (Ticket.reweigh t.identity weight)) := by
    unfold Keyed at h ⊢
    simpa only [List.map_map, Function.comp_def, identity_reweigh] using h
  refine Draw.mem_take_sortBy_map (keyed_rank h) (keyed_rank hkeyed) ht ?_ fun y hy hne => ?_
  · -- the quotient gets smaller, the identity stays
    have hquotient : t.number / weight ≤ t.number / t.weight := Nat.div_le_div_left hle hpos
    unfold Ticket.reweigh Ticket.rank
    rw [if_pos rfl, Prod.Lex.toLex_le_toLex]
    exact (lt_or_eq_of_le hquotient).imp_right fun heq => ⟨heq, le_rfl⟩
  · have hmem : t ∈ l := Draw.mem_sortBy.mp (List.mem_of_mem_take ht)
    exact if_neg fun heq => hne (List.inj_on_of_nodup_map h hy hmem heq)

omit [Sha3] in
/-- The candidates with a weight are the same. -/
theorem filter_reweigh {l : List (Str × ℕ)} (h : Keyed Prod.fst l) (hc : c ∈ l)
    (hpos : 0 < c.2) {weight : ℕ} (hle : c.2 ≤ weight) :
    (l.map (reweigh c.1 weight)).filter (fun c => 0 < c.2) =
      (l.filter fun c => 0 < c.2).map (reweigh c.1 weight) := by
  rw [List.filter_map]
  refine congrArg _ (List.filter_congr fun y hy => ?_)
  by_cases heq : y.1 = c.1
  · obtain rfl := List.inj_on_of_nodup_map h hy hc heq
    simp [reweigh, hpos, hpos.trans_le hle]
  · simp [reweigh, heq]

/-- The tickets that are drawn from those with a weight. -/
def drawn (seed : List UInt8) (pool : List (Str × ℕ)) (k : ℕ) : List Ticket :=
  (sortBy Ticket.rank ((pool.filter fun c => 0 < c.2).map fun c => ticket seed c.1 c.2)).take k

theorem selectZoneCommittee_eq (zonePath : Str) (epoch : UInt64) (eligible : List Candidate)
    (k : ℕ) : selectZoneCommittee zonePath epoch eligible k =
      (drawn (committeeDomain ++ zonePath.bytes ++ littleEndian 8 epoch.toNat)
        (eligible.map fun c => (c.identityHash, c.weight)) k).map Ticket.identity := by
  unfold selectZoneCommittee drawn
  rw [List.filter_map, List.map_map]
  split
  · next h =>
    rcases h with rfl | rfl
    · simp
    · simp [sortBy]
  · dsimp only
    split
    · next h =>
      simp only [Function.comp_def]
      rw [h]
      simp [sortBy]
    · rfl

/-- A candidate that is drawn has a weight. -/
theorem ticket_mem_drawn {seed : List UInt8} {pool : List (Str × ℕ)} (h : Keyed Prod.fst pool)
    (hc : c ∈ pool) (hdrawn : c.1 ∈ (drawn seed pool k).map Ticket.identity) :
    0 < c.2 ∧ ticket seed c.1 c.2 ∈ drawn seed pool k := by
  obtain ⟨t, ht, hid⟩ := List.mem_map.mp hdrawn
  obtain ⟨c', hc', rfl⟩ := List.mem_map.mp (Draw.mem_sortBy.mp (List.mem_of_mem_take ht))
  obtain ⟨hmem, hpos⟩ := List.mem_filter.mp hc'
  obtain rfl := List.inj_on_of_nodup_map h hmem hc hid
  exact ⟨of_decide_eq_true hpos, ht⟩

theorem mem_drawn_reweigh {seed : List UInt8} {pool : List (Str × ℕ)} (h : Keyed Prod.fst pool)
    (hc : c ∈ pool) (hdrawn : c.1 ∈ (drawn seed pool k).map Ticket.identity)
    {weight : ℕ} (hle : c.2 ≤ weight) :
    c.1 ∈ (drawn seed (pool.map (reweigh c.1 weight)) k).map Ticket.identity := by
  obtain ⟨hpos, ht⟩ := ticket_mem_drawn h hc hdrawn
  have hkeyed : Keyed Ticket.identity
      ((pool.filter fun c => 0 < c.2).map fun c => ticket seed c.1 c.2) := by
    unfold Keyed
    rw [List.map_map]
    exact h.filter _
  have hraised := drawn_of_reweigh hkeyed ht hpos hle
  rw [List.map_map] at hraised
  refine List.mem_map.mpr ⟨_, ?_, identity_reweigh c.1 weight (ticket seed c.1 c.2)⟩
  unfold drawn
  rw [filter_reweigh h hc hpos hle, List.map_map]
  simp only [Function.comp_def, ticket_reweigh]
  exact hraised

theorem mem_selectZoneCommittee_raise {epoch : UInt64}
    {eligible : List Candidate} (h : Keyed Candidate.identityHash eligible) {c : Candidate}
    (hc : c ∈ eligible) (hselected : c.identityHash ∈ selectZoneCommittee zonePath epoch eligible k)
    {weight : ℕ} (hle : c.weight ≤ weight) : c.identityHash ∈ selectZoneCommittee zonePath epoch
      (eligible.map (Candidate.reweigh c.identityHash weight)) k := by
  have hpairs : (eligible.map (Candidate.reweigh c.identityHash weight)).map
      (fun c => (c.identityHash, c.weight)) =
        (eligible.map fun c => (c.identityHash, c.weight)).map (reweigh c.identityHash weight) := by
    rw [List.map_map, List.map_map]
    refine List.map_congr_left fun y _ => ?_
    simp only [Function.comp_apply, Candidate.reweigh, reweigh]
    split <;> rfl
  have hkeyed : Keyed Prod.fst (eligible.map fun c => (c.identityHash, c.weight)) := by
    unfold Keyed
    rw [List.map_map]
    exact h
  rw [selectZoneCommittee_eq] at hselected ⊢
  rw [hpairs]
  exact mem_drawn_reweigh hkeyed (List.mem_map_of_mem hc) hselected hle

/-- Who is selected: by identity without a seed, everybody with a weight if there are few, and
otherwise those who are drawn. -/
theorem mem_selectCommitteeV2 (vrfOutput : List UInt8) (zonePath : Str) (eligible : List (Str × ℕ))
    (k : ℕ) (id : Str) : id ∈ (selectCommitteeV2 vrfOutput zonePath eligible k).map Prod.fst ↔
      k ≠ 0 ∧ if vrfOutput = [] then id ∈ ((sortBy Prod.fst eligible).take k).map Prod.fst
        else if (eligible.filter fun c => 0 < c.2).length ≤ committeeSmallNetwork then
          id ∈ (eligible.filter fun c => 0 < c.2).map Prod.fst
        else id ∈ (drawn (committeeDomain ++ vrfOutput ++ zonePath.bytes) eligible k).map
          Ticket.identity := by
  have hsort : ∀ l : List (Str × ℕ), id ∈ (sortBy Prod.fst l).map Prod.fst ↔ id ∈ l.map Prod.fst :=
    fun l => ((Draw.perm_sortBy _ _).map Prod.fst).mem_iff
  by_cases hk : k = 0
  · simp [selectCommitteeV2, hk]
  by_cases hnil : eligible = []
  · simp [selectCommitteeV2, hnil, sortBy]
  unfold selectCommitteeV2
  rw [if_neg (not_or_intro hk hnil), and_iff_right hk]
  split
  · rfl
  · dsimp only
    split
    · next hzero => simp [hzero]
    · split
      · exact hsort _
      · rw [hsort, List.map_map]
        rfl

theorem mem_selectCommitteeV2_raise {vrfOutput : List UInt8}
    {eligible : List (Str × ℕ)} (h : Keyed Prod.fst eligible) (hc : c ∈ eligible)
    (hselected : c.1 ∈ (selectCommitteeV2 vrfOutput zonePath eligible k).map Prod.fst) {weight : ℕ}
    (hle : c.2 ≤ weight) : c.1 ∈ (selectCommitteeV2 vrfOutput zonePath
      (eligible.map (reweigh c.1 weight)) k).map Prod.fst := by
  have hkeyed : Keyed Prod.fst (eligible.map (reweigh c.1 weight)) := by
    unfold Keyed at h ⊢
    simpa only [List.map_map, Function.comp_def, fst_reweigh] using h
  have hself : ∀ {c'}, c' ∈ eligible → c'.1 = c.1 → c' = c := fun hc' =>
    List.inj_on_of_nodup_map h hc' hc
  rw [mem_selectCommitteeV2] at hselected ⊢
  refine ⟨hselected.1, ?_⟩
  have hcase := hselected.2
  split at hcase
  · -- without a seed the identity decides, whatever the weight
    next hseed =>
    rw [if_pos hseed]
    obtain ⟨c', hc', hid⟩ := List.mem_map.mp hcase
    obtain rfl := hself (Draw.mem_sortBy.mp (List.mem_of_mem_take hc')) hid
    have hfirst := Draw.mem_take_sortBy_map h hkeyed hc' (fst_reweigh c'.1 weight c').le
      fun y hy hne => if_neg fun heq => hne (hself hy heq)
    exact List.mem_map.mpr ⟨_, hfirst, fst_reweigh c'.1 weight c'⟩
  · next hseed =>
    rw [if_neg hseed]
    split at hcase
    · next hsmall =>
      obtain ⟨c', hc', hid⟩ := List.mem_map.mp hcase
      obtain ⟨hmem, hpos⟩ := List.mem_filter.mp hc'
      obtain rfl := hself hmem hid
      rw [filter_reweigh h hc (of_decide_eq_true hpos) hle, List.length_map, if_pos hsmall]
      exact List.mem_map.mpr ⟨_, List.mem_map_of_mem hc', fst_reweigh c'.1 weight c'⟩
    · next hsmall =>
      have hpos := (ticket_mem_drawn h hc hcase).1
      rw [filter_reweigh h hc hpos hle, List.length_map, if_neg hsmall]
      exact mem_drawn_reweigh h hc hcase hle

/-- For candidates with distinct identities, both draws select the same committee in whatever
order the candidates are listed, and who is selected is selected with more weight as well. -/
theorem selection_fair (k : ℕ) :
    (∀ (zonePath : Str) (epoch : UInt64) (eligible : List Candidate),
      (eligible.map Candidate.identityHash).Nodup →
        (∀ eligible', eligible.Perm eligible' → selectZoneCommittee zonePath epoch eligible' k =
          selectZoneCommittee zonePath epoch eligible k) ∧
        ∀ c ∈ eligible, c.identityHash ∈ selectZoneCommittee zonePath epoch eligible k →
          ∀ weight, c.weight ≤ weight → c.identityHash ∈ selectZoneCommittee zonePath epoch
            (eligible.map (Candidate.reweigh c.identityHash weight)) k) ∧
    ∀ (vrfOutput : List UInt8) (zonePath : Str) (eligible : List (Str × ℕ)),
      (eligible.map Prod.fst).Nodup →
        (∀ eligible', eligible.Perm eligible' → selectCommitteeV2 vrfOutput zonePath eligible' k =
          selectCommitteeV2 vrfOutput zonePath eligible k) ∧
        ∀ c ∈ eligible, c.1 ∈ (selectCommitteeV2 vrfOutput zonePath eligible k).map Prod.fst →
          ∀ weight, c.2 ≤ weight → c.1 ∈ (selectCommitteeV2 vrfOutput zonePath
            (eligible.map (reweigh c.1 weight)) k).map Prod.fst := by
  refine ⟨fun zonePath epoch eligible h => ⟨?_, ?_⟩, fun vrfOutput zonePath eligible h => ⟨?_, ?_⟩⟩
  · exact fun eligible' hperm => selectZoneCommittee_perm h hperm
  · exact fun c hc hselected weight hle => mem_selectZoneCommittee_raise h hc hselected hle
  · exact fun eligible' hperm => selectCommitteeV2_perm h hperm
  · exact fun c hc hselected weight hle => mem_selectCommitteeV2_raise h hc hselected hle

end Selection

end ElaraMesh.Zones
