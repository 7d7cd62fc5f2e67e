import ElaraMesh.Ledger.Records
import ElaraMesh.Lib.Runs
import ElaraMesh.Lib.Table
import ElaraMesh.Record.Metadata

/-!
# Slashing an offense once

Workers of the genesis node that detect conflicting seals reserve the offense in memory, look
for the durable marker of an earlier slash, and only then build and insert a slash record.  The
marker is written in the batch of the record.  A worker that fails gives its reservation back,
whether its record was stored or not, and a restart forgets all reservations.

## Main results

* `Inv.step` — one holder for each reserved offense, and a marker for each slash record.
* `slashed_at_most_once` — **at most one slash record is stored for an offense.**
-/

namespace ElaraMesh.Slashing

open Record (Str Value ValidationRecord ZoneId sha3Hex)
open Smt (Sha3)
open Framing (decimal)

/-! ### Offenses and their markers -/

/-- Conflicting seals of a creator for an epoch of a zone. -/
structure Offense where
  creator : Str
  zone : ZoneId
  epochNumber : UInt64

section Digest

variable [Sha3]

def offenseDigest (kind creator detail : List UInt8) : Str :=
  sha3Hex (kind ++ 0x3a :: creator ++ 0x3a :: detail)

def sealEquivocationOffense (o : Offense) : Str :=
  offenseDigest (Str.text "seal_equivocation").bytes o.creator.bytes
    (o.zone.path ++ 0x3a :: decimal o.epochNumber.toNat)

end Digest

/-- A digit of a digest: decimal, or a small letter up to `f`. -/
def isDigestByte (b : UInt8) : Bool := (0x30 ≤ b && b ≤ 0x39) || (0x61 ≤ b && b ≤ 0x66)

def slashOffenseKey (digest : Str) : List UInt8 := (Str.text "slash_offense:").bytes ++ digest.bytes

def beatOffense (record : ValidationRecord) : Option Str :=
  (record.metadata.lookup (.text "beat_offense")).bind Value.asStr

/-- The marker that is stored with a record: that of a slash with a digest of the right form. -/
def slashOffenseSideKey (record : ValidationRecord) : Option (List UInt8) := do
  let op ← (record.metadata.lookup (.text "beat_op")).bind Value.asStr
  if op ≠ .text "slash" then none
  else
    let digest ← beatOffense record
    if digest.len ≠ 64 ∨ digest.bytes.all isDigestByte = false then none
    else some (slashOffenseKey digest)

/-- What a slash record says besides the offense. -/
structure SlashParams where
  amount : Str
  offender : Str
  challenger : Str
  jury : List Str
  stakeRecordId : Str
  reason : Str

def createSlashRecord (base : ValidationRecord) (params : SlashParams) (offense : Str) :
    ValidationRecord :=
  { base with
    metadata := [(.text "beat_amount", .string params.amount),
      (.text "beat_challenger", .string params.challenger),
      (.text "beat_jury", .array (params.jury.map Value.string)),
      (.text "beat_offender", .string params.offender),
      (.text "beat_offense", .string offense),
      (.text "beat_op", .string (.text "slash")),
      (.text "beat_reason", .string params.reason),
      (.text "beat_stake_id", .string params.stakeRecordId)] }

theorem beatOffense_create (base : ValidationRecord) (params : SlashParams) (offense : Str) :
    beatOffense (createSlashRecord base params offense) = some offense := by
  with_unfolding_all rfl

/-- A digest has the form that is asked for. -/
theorem sideKey_create [Sha3] (base : ValidationRecord) (params : SlashParams) (l : List UInt8) :
    slashOffenseSideKey (createSlashRecord base params (sha3Hex l)) =
      some (slashOffenseKey (sha3Hex l)) := by
  have hop : ((createSlashRecord base params (sha3Hex l)).metadata.lookup
      (.text "beat_op")).bind Value.asStr = some (.text "slash") := by
    with_unfolding_all rfl
  have hpair : ∀ b, (Record.hexPair b).all isDigestByte = true := by
    apply Record.forall_byte
    decide +kernel
  have hdigits : ∀ c ∈ (sha3Hex l).bytes, isDigestByte c = true := by
    intro c hc
    obtain ⟨b, -, hc⟩ := List.mem_flatMap.mp hc
    exact List.all_eq_true.mp (hpair b) c hc
  unfold slashOffenseSideKey
  rw [hop, beatOffense_create]
  simpa [Record.len_sha3Hex] using hdigits

/-! ### The node -/

/-- What outlives a restart: the slash records, and the column of the markers. -/
structure Disk where
  slashRecords : List ValidationRecord
  metadata : Table (List UInt8) Str

namespace Disk

/-- The batch of a record, with its marker. -/
def putRecord (disk : Disk) (record : ValidationRecord) : Disk where
  slashRecords := disk.slashRecords ++ [record]
  metadata :=
    match slashOffenseSideKey record with
    | some key => disk.metadata.insert key record.id
    | none => disk.metadata

def slashOffenseRecord (disk : Disk) (digest : Str) : Option Str :=
  disk.metadata.lookup (slashOffenseKey digest)

end Disk

inductive Phase where
  | idle : Phase
  /-- The offense is reserved, the marker not looked for. -/
  | reserved (o : Offense) : Phase
  | claimed (o : Offense) : Phase
  /-- The slash record is built, and handed to the ingest. -/
  | inserting (o : Offense) (record : ValidationRecord) : Phase
  /-- The batch is written, the ingest has not returned. -/
  | stored (o : Offense) : Phase
  /-- The slash failed, the reservation is not given back. -/
  | failed (o : Offense) : Phase

def Phase.offense : Phase → Option Offense
  | idle => none
  | reserved o => some o
  | claimed o => some o
  | inserting o _ => some o
  | stored o => some o
  | failed o => some o

structure Node (W : Type) where
  disk : Disk
  slashed : Finset Str
  slashCount : ℕ
  workers : W → Phase

inductive Action (W : Type) where
  /-- A worker detects an offense and tries to reserve it. -/
  | detect (w : W) (o : Offense) : Action W
  | probe (w : W) : Action W
  /-- There is no stake to slash, or the record cannot be signed. -/
  | abandon (w : W) : Action W
  | build (w : W) (base : ValidationRecord) (params : SlashParams) : Action W
  | put (w : W) : Action W
  /-- The ingest returns an error, before or after the batch. -/
  | fail (w : W) : Action W
  | finish (w : W) : Action W
  | release (w : W) : Action W
  | restart : Action W

section Node

variable [Sha3] {W : Type} [DecidableEq W]

def Node.move (n : Node W) (w : W) (phase : Phase) : Node W :=
  { n with workers := Function.update n.workers w phase }

/-- A step of a node; a worker that is elsewhere does nothing. -/
def step (n : Node W) : Action W → Node W
  | .detect w o =>
    match n.workers w with
    | .idle =>
      if sealEquivocationOffense o ∈ n.slashed then n
      else
        { n with slashed := insert (sealEquivocationOffense o) n.slashed }.move w (.reserved o)
    | _ => n
  | .probe w =>
    match n.workers w with
    | .reserved o =>
      match n.disk.slashOffenseRecord (sealEquivocationOffense o) with
      -- slashed before: the reservation is kept
      | some _ => n.move w .idle
      | none => n.move w (.claimed o)
    | _ => n
  | .abandon w =>
    match n.workers w with
    | .claimed o => n.move w (.failed o)
    | _ => n
  | .build w base params =>
    match n.workers w with
    | .claimed o =>
      n.move w (.inserting o (createSlashRecord base params (sealEquivocationOffense o)))
    | _ => n
  | .put w =>
    match n.workers w with
    | .inserting o record => { n with disk := n.disk.putRecord record }.move w (.stored o)
    | _ => n
  | .fail w =>
    match n.workers w with
    | .inserting o _ => n.move w (.failed o)
    | .stored o => n.move w (.failed o)
    | _ => n
  | .finish w =>
    match n.workers w with
    | .stored _ => { n with slashCount := n.slashCount + 1 }.move w .idle
    | _ => n
  | .release w =>
    match n.workers w with
    | .failed o =>
      { n with slashed := n.slashed.erase (sealEquivocationOffense o) }.move w .idle
    | _ => n
  | .restart => { disk := n.disk, slashed := ∅, slashCount := 0, workers := fun _ => .idle }

def runFrom (actions : List (Action W)) : Node W :=
  actions.foldl step ⟨⟨[], ∅⟩, ∅, 0, fun _ => .idle⟩

/-! ### Reservations and markers -/

/-- No slash record of the offense is stored. -/
def Unslashed (disk : Disk) (o : Offense) : Prop :=
  ∀ r ∈ disk.slashRecords, beatOffense r ≠ some (sealEquivocationOffense o)

/-- What a worker past the marker relies on. -/
def Cleared (disk : Disk) : Phase → Prop
  | .claimed o => Unslashed disk o
  | .inserting o r =>
    Unslashed disk o ∧ ∃ base params, r = createSlashRecord base params (sealEquivocationOffense o)
  | _ => True

structure Inv (n : Node W) : Prop where
  held : ∀ w o, (n.workers w).offense = some o → sealEquivocationOffense o ∈ n.slashed
  alone : ∀ w w' o o', (n.workers w).offense = some o → (n.workers w').offense = some o' →
    sealEquivocationOffense o = sealEquivocationOffense o' → w = w'
  cleared : ∀ w, Cleared n.disk (n.workers w)
  marked : ∀ r ∈ n.disk.slashRecords, ∃ digest, beatOffense r = some digest ∧
    (n.disk.slashOffenseRecord digest).isSome
  once : (n.disk.slashRecords.map beatOffense).Nodup

variable {n : Node W} {w : W} {o : Offense}

/-- A worker goes on with its offense, or drops it. -/
theorem Inv.move (h : Inv n) {phase : Phase}
    (hoffense : phase.offense = none ∨ phase.offense = (n.workers w).offense)
    (hcleared : Cleared n.disk phase) : Inv (n.move w phase) := by
  have hkept : ∀ v o, ((n.move w phase).workers v).offense = some o →
      (n.workers v).offense = some o := by
    intro v o hv
    rcases eq_or_ne v w with rfl | hne
    · simp only [Node.move, Function.update_self] at hv
      rcases hoffense with hnone | hsame
      · exact absurd (hnone.symm.trans hv) (by simp)
      · exact hsame ▸ hv
    · simpa only [Node.move, Function.update_of_ne hne] using hv
  refine ⟨fun v o hv => h.held v o (hkept v o hv), ?_, fun v => ?_, h.marked, h.once⟩
  · intro v v' o o' hv hv' heq
    exact h.alone v v' o o' (hkept v o hv) (hkept v' o' hv') heq
  · rcases eq_or_ne v w with rfl | hne
    · simpa only [Node.move, Function.update_self] using hcleared
    · simpa only [Node.move, Function.update_of_ne hne] using h.cleared v

theorem Inv.reserve (h : Inv n) (w : W) (hfree : sealEquivocationOffense o ∉ n.slashed) :
    Inv ({ n with slashed := insert (sealEquivocationOffense o) n.slashed }.move w (.reserved o)) := by
  have hcase : ∀ v o', ((Function.update n.workers w (.reserved o)) v).offense = some o' →
      (v = w ∧ o' = o) ∨ (v ≠ w ∧ sealEquivocationOffense o' ∈ n.slashed) := by
    intro v o' hv
    rcases eq_or_ne v w with rfl | hne
    · rw [Function.update_self] at hv
      exact Or.inl ⟨rfl, (Option.some.inj hv).symm⟩
    · rw [Function.update_of_ne hne] at hv
      exact Or.inr ⟨hne, h.held v o' hv⟩
  refine ⟨fun v o' hv => ?_, fun v v' p p' hv hv' heq => ?_, fun v => ?_, h.marked, h.once⟩
  · rcases hcase v o' hv with ⟨-, rfl⟩ | ⟨-, hmem⟩
    · exact Finset.mem_insert_self _ _
    · exact Finset.mem_insert_of_mem hmem
  · -- the others hold reserved offenses, the new one was not reserved
    rcases hcase v p hv with ⟨rfl, rfl⟩ | ⟨hne, hmem⟩
    · rcases hcase v' p' hv' with ⟨rfl, -⟩ | ⟨-, hmem'⟩
      · rfl
      · exact absurd (heq ▸ hmem') hfree
    · rcases hcase v' p' hv' with ⟨-, rfl⟩ | ⟨hne', -⟩
      · exact absurd (heq ▸ hmem) hfree
      · simp only [Node.move, Function.update_of_ne hne] at hv
        simp only [Node.move, Function.update_of_ne hne'] at hv'
        exact h.alone v v' p p' hv hv' heq
  · rcases eq_or_ne v w with rfl | hne
    · simp only [Node.move, Function.update_self]
      trivial
    · simpa only [Node.move, Function.update_of_ne hne] using h.cleared v

/-- Only its holder gives a reservation back. -/
theorem Inv.release (h : Inv n) (hw : (n.workers w).offense = some o) :
    Inv ({ n with slashed := n.slashed.erase (sealEquivocationOffense o) }.move w .idle) := by
  have hmoved : Inv (n.move w .idle) := h.move (Or.inl rfl) trivial
  refine ⟨fun v o' hv => ?_, hmoved.alone, hmoved.cleared, hmoved.marked, hmoved.once⟩
  have hne : v ≠ w := by
    rintro rfl
    simp [Node.move, Phase.offense] at hv
  refine Finset.mem_erase.mpr ⟨fun heq => hne ?_, hmoved.held v o' hv⟩
  simp only [Node.move, Function.update_of_ne hne] at hv
  exact h.alone v w o' o hv hw heq

/-- The record of a holder and its marker are stored at once. -/
theorem Inv.put (h : Inv n) {r : ValidationRecord} (hw : n.workers w = .inserting o r) :
    Inv ({ n with disk := n.disk.putRecord r }.move w (.stored o)) := by
  have hcleared := h.cleared w
  rw [hw] at hcleared
  obtain ⟨hunslashed, base, params, rfl⟩ := hcleared
  have hoffense : (n.workers w).offense = some o := by rw [hw]; rfl
  have hmoved : Inv (n.move w (.stored o)) := h.move (Or.inr hoffense.symm) trivial
  have hkey := sideKey_create base params
  have hothers : ∀ v ≠ w, ∀ o', (n.workers v).offense = some o' → Unslashed n.disk o' →
      Unslashed (n.disk.putRecord
        (createSlashRecord base params (sealEquivocationOffense o))) o' := by
    intro v hne o' hv hold r' hr'
    rcases List.mem_append.mp hr' with hr' | hr'
    · exact hold r' hr'
    · rw [List.mem_singleton.mp hr', beatOffense_create]
      intro heq
      exact hne (h.alone v w o' o hv hoffense (Option.some.inj heq).symm)
  refine ⟨hmoved.held, hmoved.alone, fun v => ?_, fun r' hr' => ?_, ?_⟩
  · rcases eq_or_ne v w with rfl | hne
    · simp only [Node.move, Function.update_self]
      trivial
    · simp only [Node.move, Function.update_of_ne hne]
      have hv := h.cleared v
      cases hphase : n.workers v with
      | claimed o' =>
        rw [hphase] at hv
        exact hothers v hne o' (by rw [hphase]; rfl) hv
      | inserting o' r' =>
        rw [hphase] at hv
        exact ⟨hothers v hne o' (by rw [hphase]; rfl) hv.1, hv.2⟩
      | _ => trivial
  · show ∃ digest, _ ∧ ((n.disk.putRecord _).slashOffenseRecord digest).isSome
    simp only [Disk.slashOffenseRecord, Disk.putRecord, sealEquivocationOffense, offenseDigest, hkey]
    rcases List.mem_append.mp hr' with hr' | hr'
    · obtain ⟨digest, hdigest, hmarker⟩ := h.marked r' hr'
      refine ⟨digest, hdigest, ?_⟩
      rw [Table.lookup_insert_eq]
      split
      · rfl
      · exact hmarker
    · rw [List.mem_singleton.mp hr']
      exact ⟨_, beatOffense_create .., by rw [sealEquivocationOffense, offenseDigest, AList.lookup_insert]; rfl⟩
  · show ((n.disk.slashRecords ++ [_]).map beatOffense).Nodup
    rw [List.map_append, List.map_singleton, beatOffense_create, List.nodup_append]
    refine ⟨h.once, List.nodup_singleton _, ?_⟩
    intro d hd d' hd' heq
    obtain ⟨r', hr', rfl⟩ := List.mem_map.mp hd
    rw [List.mem_singleton] at hd'
    exact hunslashed r' hr' (heq.trans hd')

theorem Inv.step (h : Inv n) (a : Action W) : Inv (step n a) := by
  cases a with
  | detect w o =>
    simp only [Slashing.step]
    split
    · split
      · exact h
      · rename_i hfree
        exact h.reserve w hfree
    · exact h
  | probe w =>
    simp only [Slashing.step]
    split
    · rename_i o hw
      split
      · exact h.move (Or.inl rfl) trivial
      · rename_i hnone
        refine h.move (Or.inr (by rw [hw]; rfl)) fun r hr hdigest => ?_
        -- a slash record would have its marker
        obtain ⟨digest, hbeat, hmarker⟩ := h.marked r hr
        rw [hdigest] at hbeat
        rw [← Option.some.inj hbeat, hnone] at hmarker
        cases hmarker
    · exact h
  | abandon w =>
    simp only [Slashing.step]
    split
    · rename_i o hw
      exact h.move (Or.inr (by rw [hw]; rfl)) trivial
    · exact h
  | build w base params =>
    simp only [Slashing.step]
    split
    · rename_i o hw
      have hcleared := h.cleared w
      rw [hw] at hcleared
      exact h.move (Or.inr (by rw [hw]; rfl)) ⟨hcleared, base, params, rfl⟩
    · exact h
  | put w =>
    simp only [Slashing.step]
    split
    · rename_i o r hw
      exact h.put hw
    · exact h
  | fail w =>
    simp only [Slashing.step]
    split
    · rename_i o r hw
      exact h.move (Or.inr (by rw [hw]; rfl)) trivial
    · rename_i o hw
      exact h.move (Or.inr (by rw [hw]; rfl)) trivial
    · exact h
  | finish w =>
    simp only [Slashing.step]
    split
    · have hmoved : Inv (n.move w .idle) := h.move (Or.inl rfl) trivial
      exact ⟨hmoved.held, hmoved.alone, hmoved.cleared, hmoved.marked, hmoved.once⟩
    · exact h
  | release w =>
    simp only [Slashing.step]
    split
    · rename_i o hw
      exact h.release (by rw [hw]; rfl)
    · exact h
  | restart =>
    exact ⟨fun _ _ hw => (nomatch hw), fun _ _ _ _ hw => (nomatch hw), fun _ => trivial, h.marked,
      h.once⟩

theorem inv_runFrom (actions : List (Action W)) : Inv (runFrom actions) := by
  refine Runs.forall_state (fun n a hn => hn.step a) ?_ actions
  exact ⟨fun _ _ hw => (nomatch hw), fun _ _ _ _ hw => (nomatch hw), fun _ => trivial,
    fun _ hr => (nomatch hr), List.nodup_nil⟩

/-- Whatever the workers do, in whatever order, with whatever restarts, at most one slash record
of an offense is stored. -/
theorem slashed_at_most_once (actions : List (Action W)) (o : Offense) :
    ((runFrom actions).disk.slashRecords.filter fun r =>
      beatOffense r = some (sealEquivocationOffense o)).length ≤ 1 := by
  have hcount := List.nodup_iff_count_le_one.mp (inv_runFrom actions).once
    (some (sealEquivocationOffense o))
  rw [List.count, List.countP_map, List.countP_eq_length_filter] at hcount
  simpa only [Function.comp_def, beq_eq_decide] using hcount

end Node

-- a worker stores its record, fails and gives the offense back; another one finds the marker
example :
    let := Smt.guardedSha3
    let o : Offense := ⟨.text "creator", ⟨[0x61]⟩, 7⟩
    let base := Ledger.plainRecord "slash" 1 10
    let run : List (Action Bool) := [.detect true o, .probe true, .build true base
      ⟨.text "5", .text "creator", .text "genesis", [], .text "stake", .text "auto"⟩, .put true,
      .fail true, .release true, .detect false o, .probe false, .build false base
      ⟨.text "5", .text "creator", .text "genesis", [], .text "stake", .text "auto"⟩, .put false]
    (runFrom run).disk.slashRecords.length = 1 := by
  decide +kernel

end ElaraMesh.Slashing
