import ElaraMesh.Ledger.Outcome
import ElaraMesh.Ledger.Records
import ElaraMesh.Lib.Table
import ElaraMesh.Record.Metadata

/-!
# Disputes

A record opens a dispute over another record, further records bring evidence, and a record
that resolves the dispute closes it.  The outcome moves the reputation of the witnesses that
attested the contested record.  Who resolves is kept as a label: the admission of a record
looks at the fields of the operation, not at its creator.

## Main results

* `closes_step_iff`, `resolves_of_reputation_ne` — what closes a dispute and what moves a
  reputation.
* `decided_by_authority_iff` — outcomes are those of an authority if and only if the records
  that resolve are.
-/

namespace ElaraMesh.Network

open Ledger (Message creatorIdentityHash timestampOf)
open Record (Str Value ValidationRecord)
open Iteration (walk)
open Smt (Sha3)
open Tx (bind_eq_ok)

/-! ### Disputes -/

inductive DisputeStatus where
  | opened : DisputeStatus
  | evidencePhase : DisputeStatus
  | communityReview : DisputeStatus
  | resolved : DisputeStatus
  | dismissed : DisputeStatus
  deriving DecidableEq

namespace DisputeStatus

def closed : DisputeStatus → Bool
  | resolved => true
  | dismissed => true
  | _ => false

def name : DisputeStatus → String
  | opened => "Open"
  | evidencePhase => "EvidencePhase"
  | communityReview => "CommunityReview"
  | resolved => "Resolved"
  | dismissed => "Dismissed"

end DisputeStatus

structure DisputeResolution where
  resolvedAt : F64
  resolver : Str
  outcome : Str
  deriving DecidableEq

structure Dispute where
  id : Str
  contestedRecordId : Str
  opener : Str
  reason : Str
  openedAt : F64
  status : DisputeStatus
  evidenceIds : List Str
  governanceProposalId : Option Str
  resolution : Option DisputeResolution
  deriving DecidableEq

inductive ParsedDisputeOp where
  | opened (contestedRecordId reason : Str) : ParsedDisputeOp
  | evidence (disputeId evidenceData : Str) : ParsedDisputeOp
  | resolve (disputeId outcome : Str) : ParsedDisputeOp
  deriving DecidableEq

abbrev DisputeState : Type := Table Str Dispute

def maxDisputes : ℕ := 1000

section Disputes

variable [Iteration]

/-- A dispute over a record that is not closed. -/
def disputeForRecord (disputes : DisputeState) (recordId : Str) : Option Dispute :=
  ((walk disputes).map Prod.snd).find? fun d =>
    decide (d.contestedRecordId = recordId) && !d.status.closed

def pruneResolved (disputes : DisputeState) : DisputeState :=
  disputes.retain fun _ d => !d.status.closed

/-- Without the first disputes of the order: closed ones, then those opened earlier. -/
def evictOldest (disputes : DisputeState) (count : ℕ) : DisputeState :=
  let entries := (walk disputes).map fun e => (e.1, e.2.openedAt, e.2.status.closed)
  let sorted := entries.insertionSort fun a b =>
    (b.2.2 < a.2.2) ∨ (a.2.2 = b.2.2 ∧ a.2.1.totalKey ≤ b.2.1.totalKey)
  (sorted.take count).foldl (fun disputes e => disputes.erase e.1) disputes

def makeRoom (disputes : DisputeState) : DisputeState :=
  if disputes.entries.length ≥ maxDisputes then
    let pruned := pruneResolved disputes
    if pruned.entries.length ≥ maxDisputes then evictOldest pruned (maxDisputes / 10) else pruned
  else disputes

def openDispute (disputes : DisputeState) (disputeId contestedRecordId opener reason : Str)
    (timestamp : F64) : Except Message DisputeState :=
  if (disputes.lookup disputeId).isSome then
    .error [.text "dispute already exists: ", .str disputeId]
  else if (disputeForRecord disputes contestedRecordId).isSome then
    .error [.text "open dispute already exists for record: ", .str contestedRecordId]
  else
    .ok ((makeRoom disputes).insert disputeId {
      id := disputeId
      contestedRecordId
      opener
      reason
      openedAt := timestamp
      status := .opened
      evidenceIds := []
      governanceProposalId := none
      resolution := none })

end Disputes

/-- The dispute of an identifier, if it is not closed. -/
def openDisputeAt (disputes : DisputeState) (disputeId : Str) : Except Message Dispute :=
  match disputes.lookup disputeId with
  | none => .error [.text "dispute not found: ", .str disputeId]
  | some d => if d.status.closed then .error [.text "dispute is already closed"] else .ok d

def addEvidence (disputes : DisputeState) (disputeId evidenceRecordId : Str)
    (timestamp evidenceWindowSecs : F64) : Except Message DisputeState := do
  let dispute ← openDisputeAt disputes disputeId
  if evidenceWindowSecs.lt (timestamp.sub dispute.openedAt) then
    .error [.text "evidence window has expired"]
  else
    .ok (disputes.insert disputeId { dispute with
      evidenceIds := dispute.evidenceIds ++ [evidenceRecordId]
      status := .evidencePhase })

def resolve (disputes : DisputeState) (disputeId resolver outcome : Str) (timestamp : F64) :
    Except Message DisputeState := do
  let dispute ← openDisputeAt disputes disputeId
  .ok (disputes.insert disputeId { dispute with
    status := if outcome = .text "dismissed" then .dismissed else .resolved
    resolution := some { resolvedAt := timestamp, resolver, outcome } })

def escalateToGovernance (disputes : DisputeState) (disputeId governanceProposalId : Str) :
    Except Message DisputeState :=
  match disputes.lookup disputeId with
  | none => .error [.text "dispute not found: ", .str disputeId]
  | some dispute =>
    if dispute.status = .opened ∨ dispute.status = .evidencePhase then
      .ok (disputes.insert disputeId { dispute with
        status := .communityReview
        governanceProposalId := some governanceProposalId })
    else
      .error [.text "cannot escalate dispute in ", .text dispute.status.name,
        .text " state (must be Open or EvidencePhase)"]

/-! ### Disputes that are not closed -/

def Closes (before after : DisputeState) (id : Str) : Prop :=
  (∃ d, after.lookup id = some d ∧ d.status.closed) ∧
    ∀ d, before.lookup id = some d → d.status.closed = false

/-- Nothing new but the entry of one dispute, which is not closed. -/
def Grows (before after : DisputeState) : Prop :=
  ∀ id d, after.lookup id = some d → d.status.closed = false ∨ before.lookup id = some d

theorem not_closes_of_grows {before after : DisputeState} (h : Grows before after) (id : Str) :
    ¬ Closes before after id := by
  rintro ⟨⟨d, hd, hclosed⟩, hbefore⟩
  rcases h id d hd with hopen | hold
  · simp [hopen] at hclosed
  · simp [hbefore d hold] at hclosed

theorem grows_refl (disputes : DisputeState) : Grows disputes disputes := fun _ _ h => Or.inr h

theorem grows_insert {before after : DisputeState} (h : Grows before after) {d : Dispute}
    (hd : d.status.closed = false) (id : Str) : Grows before (after.insert id d) := by
  intro k d' hk
  rw [Table.lookup_insert_eq] at hk
  split at hk
  · rw [← Option.some.inj hk]
    exact Or.inl hd
  · exact h k d' hk

theorem grows_foldl_erase {α : Type} (key : α → Str) (l : List α) (disputes : DisputeState) :
    Grows disputes (l.foldl (fun disputes e => disputes.erase (key e)) disputes) := by
  induction l generalizing disputes with
  | nil => exact grows_refl disputes
  | cons a l ih =>
    intro k d hk
    rcases ih (disputes.erase (key a)) k d hk with hopen | hold
    · exact Or.inl hopen
    · rw [Table.lookup_erase_eq] at hold
      split at hold
      · cases hold
      · exact Or.inr hold

theorem grows_pruneResolved (disputes : DisputeState) : Grows disputes (pruneResolved disputes) :=
  fun _ _ hk => Or.inr (Table.lookup_retain.mp hk).1

/-- Disputes that are left out are not closed by that. -/
theorem grows_makeRoom [Iteration] (disputes : DisputeState) : Grows disputes (makeRoom disputes) := by
  unfold makeRoom
  dsimp only
  split
  · split
    · intro k d hk
      rcases grows_foldl_erase _ _ _ k d hk with hopen | hold
      · exact Or.inl hopen
      · exact grows_pruneResolved disputes k d hold
    · exact grows_pruneResolved disputes
  · exact grows_refl disputes

theorem grows_openDispute [Iteration] {before after : DisputeState} {id contested opener reason : Str} {t : F64}
    (h : openDispute before id contested opener reason t = .ok after) : Grows before after := by
  unfold openDispute at h
  split at h
  · cases h
  · split at h
    · cases h
    · rw [← Except.ok.inj h]
      exact grows_insert (grows_makeRoom before) rfl id

theorem openDisputeAt_eq_ok {disputes : DisputeState} {id : Str} {d : Dispute} :
    openDisputeAt disputes id = .ok d ↔ disputes.lookup id = some d ∧ d.status.closed = false := by
  unfold openDisputeAt
  cases disputes.lookup id with
  | none => simp
  | some d' =>
    dsimp only
    split
    · rename_i hclosed
      simp only [reduceCtorEq, Option.some.injEq, false_iff, not_and, Bool.not_eq_false]
      rintro rfl
      exact hclosed
    · rename_i hopen
      simp only [Except.ok.injEq, Option.some.injEq, iff_self_and]
      rintro rfl
      simpa using hopen

theorem grows_addEvidence {before after : DisputeState} {id record : Str} {t window : F64}
    (h : addEvidence before id record t window = .ok after) : Grows before after := by
  obtain ⟨d, -, h⟩ := bind_eq_ok.mp h
  split at h
  · cases h
  · rw [← Except.ok.inj h]
    exact grows_insert (grows_refl before) rfl id

theorem grows_escalate {before after : DisputeState} {id proposal : Str}
    (h : escalateToGovernance before id proposal = .ok after) : Grows before after := by
  unfold escalateToGovernance at h
  split at h
  · cases h
  · split at h
    · rw [← Except.ok.inj h]
      exact grows_insert (grows_refl before) rfl id
    · cases h

theorem resolve_eq_ok {before after : DisputeState} {id resolver outcome : Str} {t : F64} :
    resolve before id resolver outcome t = .ok after ↔
      ∃ d, (before.lookup id = some d ∧ d.status.closed = false) ∧
        before.insert id { d with
          status := if outcome = .text "dismissed" then .dismissed else .resolved
          resolution := some ⟨t, resolver, outcome⟩ } = after := by
  unfold resolve
  simp only [bind_eq_ok, openDisputeAt_eq_ok, Except.ok.injEq]

/-! ### Operations in the metadata -/

def getDisputeStr (metadata : List (Str × Value)) (key : String) : Except Message Str :=
  match metadata.lookup (.text key) with
  | none => .error [.text "missing field: ", .text key]
  | some v =>
    match v.asStr with
    | none => .error [.text key, .text " must be a string"]
    | some s => .ok s

/-- The operation of a name, with its fields. -/
def parseDisputeOp (metadata : List (Str × Value)) (op : Str) : Except Message ParsedDisputeOp := do
  if op = .text "open" then
    let contested ← getDisputeStr metadata "dispute_record_id"
    let reason ← getDisputeStr metadata "dispute_reason"
    return .opened contested reason
  else if op = .text "evidence" then
    let disputeId ← getDisputeStr metadata "dispute_id"
    let data ← getDisputeStr metadata "dispute_evidence"
    return .evidence disputeId data
  else if op = .text "resolve" then
    let disputeId ← getDisputeStr metadata "dispute_id"
    let outcome ← getDisputeStr metadata "dispute_outcome"
    return .resolve disputeId outcome
  else
    .error [.text "unknown dispute op: ", .str op]

def extractDisputeOp (metadata : List (Str × Value)) : Except Message (Option ParsedDisputeOp) :=
  match metadata.lookup (.text "dispute_op") with
  | none => .ok none
  | some v =>
    match v.asStr with
    | none => .error [.text "dispute_op must be a string"]
    | some op => (parseDisputeOp metadata op).map some

/-- The operation of a record; metadata that cannot be read hold none. -/
def disputeOpOf (record : ValidationRecord) : Option ParsedDisputeOp :=
  (extractDisputeOp record.metadata).toOption.join

def verifyDispute : ParsedDisputeOp → Except Message Unit
  | .opened contestedRecordId reason =>
    if contestedRecordId.len = 0 then .error [.text "contested_record_id is empty"]
    else if reason.len = 0 then .error [.text "dispute reason is empty"]
    else .ok ()
  | .evidence disputeId evidenceData =>
    if disputeId.len = 0 then .error [.text "dispute_id is empty"]
    else if evidenceData.len = 0 then .error [.text "evidence_data is empty"]
    else .ok ()
  | .resolve disputeId outcome =>
    if disputeId.len = 0 then .error [.text "dispute_id is empty"]
    else if outcome ∈ [Str.text "upheld", .text "dismissed", .text "voided"] then .ok ()
    else
      .error [.text "invalid outcome: ", .str outcome,
        .text " (must be upheld, dismissed, or voided)"]

/-! ### Reputation -/

/-- The events of a reputation that disputes bring about. -/
inductive ReputationEvent where
  | disputeWon : ReputationEvent
  | disputeLost : ReputationEvent

def ReputationEvent.delta : ReputationEvent → F64
  | disputeWon => F64.ofNat 2
  | disputeLost => (F64.ofNat 5).neg

/-- How much of a score is left after a time: `0.5 ^ (dt / 180 days)`. -/
class HalfLife where
  factor : F64 → F64

structure WitnessReputation where
  score : F64
  positiveEvents : ℕ
  negativeEvents : ℕ
  lastEvent : F64
  firstSeen : F64
  deriving DecidableEq

def minReputation : F64 := F64.zero

def maxReputation : F64 := F64.ofNat 100

def clampScore (score : F64) : F64 :=
  if score.lt minReputation then minReputation
  else if maxReputation.lt score then maxReputation else score

section Reputation

variable [HalfLife]

def decayScore (score lastEvent now : F64) : F64 :=
  if lastEvent.place = F64.zero.place ∨ now.le lastEvent then score
  else clampScore (score.mul (HalfLife.factor (now.sub lastEvent)))

/-- The entry of a witness, brought to the time of an event. -/
def entryAt (reputation : Table Str WitnessReputation) (witness : Str) (timestamp : F64) :
    WitnessReputation :=
  match reputation.lookup witness with
  | none => ⟨F64.ofNat 50, 0, 0, F64.zero, timestamp⟩
  | some entry =>
    if entry.lastEvent.lt timestamp then
      { entry with score := decayScore entry.score entry.lastEvent timestamp }
    else entry

def applyEvent (reputation : Table Str WitnessReputation) (witness : Str)
    (event : ReputationEvent) (timestamp : F64) : Table Str WitnessReputation :=
  let entry := entryAt reputation witness timestamp
  let entry := { entry with score := clampScore (entry.score.add event.delta) }
  let entry :=
    if F64.zero.lt event.delta then { entry with positiveEvents := entry.positiveEvents + 1 }
    else { entry with negativeEvents := entry.negativeEvents + 1 }
  reputation.insert witness
    (if entry.lastEvent.lt timestamp then { entry with lastEvent := timestamp } else entry)

/-- The attestors of a bad record lose, those of a good one win. -/
def processDisputeResolution (reputation : Table Str WitnessReputation) (outcome : Str)
    (attestors : List Str) (timestamp : F64) : Table Str WitnessReputation :=
  if outcome = .text "upheld" then
    attestors.foldl (fun rep w => applyEvent rep w .disputeLost timestamp) reputation
  else if outcome = .text "dismissed" then
    attestors.foldl (fun rep w => applyEvent rep w .disputeWon timestamp) reputation
  else reputation

end Reputation

/-! ### The node -/

structure Config where
  genesisAuthority : Str
  disputeEvidenceWindowSecs : F64

structure Node where
  disputes : DisputeState
  reputation : Table Str WitnessReputation
  deriving DecidableEq

/-- What a record is ingested next to: who attested which record, and which proposals have
passed. -/
structure World where
  attestors : Str → List Str
  passed : Str → Bool

section Node

variable [Sha3] [Iteration] [HalfLife]

def resolveEffects (node : Node) (world : World) (record : ValidationRecord)
    (disputeId outcome : Str) (disputes : DisputeState) : Node :=
  { disputes
    reputation :=
      match node.disputes.lookup disputeId with
      | none => node.reputation
      | some d =>
        processDisputeResolution node.reputation outcome (world.attestors d.contestedRecordId)
          (timestampOf record) }

/-- What an operation does; a transition that is refused changes nothing. -/
def applyDisputeOp (config : Config) (node : Node) (world : World) (record : ValidationRecord) :
    ParsedDisputeOp → Except Message Node
  | .opened contestedRecordId reason => do
    let disputes ← openDispute node.disputes record.id contestedRecordId
      (creatorIdentityHash record) reason (timestampOf record)
    return { node with disputes }
  | .evidence disputeId _ => do
    let disputes ← addEvidence node.disputes disputeId record.id (timestampOf record)
      config.disputeEvidenceWindowSecs
    return { node with disputes }
  | .resolve disputeId outcome => do
    let resolver :=
      if creatorIdentityHash record = config.genesisAuthority then .text "genesis"
      else .text "governance"
    let disputes ← resolve node.disputes disputeId resolver outcome (timestampOf record)
    return resolveEffects node world record disputeId outcome disputes

/-- The ingest of a record: an operation that is not valid is refused. -/
def ingestDispute (config : Config) (node : Node) (world : World) (record : ValidationRecord) :
    Except Message Node :=
  match disputeOpOf record with
  | none => .ok node
  | some op => do
    verifyDispute op
    applyDisputeOp config node world record op

inductive Event where
  | record (r : ValidationRecord) (world : World) : Event
  | escalate (disputeId governanceProposalId : Str) : Event

def step (config : Config) (node : Node) : Event → Node
  | .record r world => (ingestDispute config node world r).toOption.getD node
  | .escalate disputeId proposalId =>
    match escalateToGovernance node.disputes disputeId proposalId with
    | .ok disputes => { node with disputes }
    | .error _ => node

def runFrom (config : Config) (events : List Event) : Node := events.foldl (step config) ⟨∅, ∅⟩

/-! ### What closes a dispute -/

/-- A valid record resolves a dispute that is not closed. -/
def Resolves (node : Node) (e : Event) (id : Str) : Prop :=
  ∃ r world outcome, e = .record r world ∧ disputeOpOf r = some (.resolve id outcome) ∧
    verifyDispute (.resolve id outcome) = .ok () ∧
    ∃ d, node.disputes.lookup id = some d ∧ d.status.closed = false

/-- The record is of the genesis authority, or the dispute was escalated to a proposal that has
passed. -/
def Authorised (config : Config) (node : Node) (id : Str) : Event → Prop
  | .record r world =>
    creatorIdentityHash r = config.genesisAuthority ∨
      ∃ d proposal, node.disputes.lookup id = some d ∧ d.governanceProposalId = some proposal ∧
        world.passed proposal
  | .escalate _ _ => False

/-- A step that leaves a dispute as it is, or resolves one. -/
theorem step_cases (config : Config) (node : Node) (e : Event) :
    (Grows node.disputes (step config node e).disputes ∧
      (step config node e).reputation = node.reputation) ∨
    ∃ r world id outcome resolver, e = .record r world ∧
      disputeOpOf r = some (.resolve id outcome) ∧ verifyDispute (.resolve id outcome) = .ok () ∧
      ∃ disputes, resolve node.disputes id resolver outcome (timestampOf r) = .ok disputes ∧
        step config node e = resolveEffects node world r id outcome disputes := by
  have hstay : Grows node.disputes node.disputes ∧ node.reputation = node.reputation :=
    ⟨grows_refl _, rfl⟩
  cases e with
  | escalate id proposal =>
    left
    simp only [step]
    split
    · rename_i disputes h
      exact ⟨grows_escalate h, rfl⟩
    · exact hstay
  | record r world =>
    cases hingest : ingestDispute config node world r with
    | error e =>
      left
      simpa only [step, hingest, Except.toOption, Option.getD_none] using hstay
    | ok after =>
      have hstep : step config node (.record r world) = after := by
        simp only [step, hingest, Except.toOption, Option.getD_some]
      rw [hstep]
      unfold ingestDispute at hingest
      split at hingest
      · left
        rw [← Except.ok.inj hingest]
        exact hstay
      · rename_i op hop
        obtain ⟨⟨⟩, hverify, hingest⟩ := bind_eq_ok.mp hingest
        cases op with
        | opened contested reason =>
          obtain ⟨disputes, hopen, hafter⟩ := bind_eq_ok.mp hingest
          left
          rw [← Except.ok.inj hafter]
          exact ⟨grows_openDispute hopen, rfl⟩
        | evidence id data =>
          obtain ⟨disputes, hadd, hafter⟩ := bind_eq_ok.mp hingest
          left
          rw [← Except.ok.inj hafter]
          exact ⟨grows_addEvidence hadd, rfl⟩
        | resolve id outcome =>
          obtain ⟨disputes, hresolve, hafter⟩ := bind_eq_ok.mp hingest
          exact Or.inr ⟨r, world, id, outcome, _, rfl, hop, hverify, disputes, hresolve,
            (Except.ok.inj hafter).symm⟩

/-- A dispute is closed by the records that resolve it, and by nothing else. -/
theorem closes_step_iff (config : Config) (node : Node) (e : Event) (id : Str) :
    Closes node.disputes (step config node e).disputes id ↔ Resolves node e id := by
  constructor
  · intro hcloses
    rcases step_cases config node e with ⟨hgrows, -⟩ | h
    · exact absurd hcloses (not_closes_of_grows hgrows id)
    · obtain ⟨r, world, id', outcome, resolver, rfl, hop, hverify, disputes, hresolve, hstep⟩ := h
      obtain ⟨d, hd, hafter⟩ := resolve_eq_ok.mp hresolve
      obtain ⟨⟨d', hd', hclosed⟩, hbefore⟩ := hcloses
      rw [hstep] at hd'
      simp only [resolveEffects, ← hafter, Table.lookup_insert_eq] at hd'
      split at hd'
      · rename_i hid
        subst hid
        exact ⟨r, world, outcome, rfl, hop, hverify, d, hd⟩
      · simp [hbefore d' hd'] at hclosed
  · rintro ⟨r, world, outcome, rfl, hop, hverify, d, hd⟩
    have hresolve : ∀ resolver, resolve node.disputes id resolver outcome (timestampOf r) = .ok _ :=
      fun _ => resolve_eq_ok.mpr ⟨d, hd, rfl⟩
    simp only [step, ingestDispute, hop, hverify, applyDisputeOp, hresolve]
    refine ⟨⟨_, AList.lookup_insert _, ?_⟩, ?_⟩
    · dsimp only
      split <;> rfl
    · intro d' hd'
      rw [hd.1] at hd'
      rw [← Option.some.inj hd']
      exact hd.2

/-- A reputation moves only where a dispute is closed. -/
theorem resolves_of_reputation_ne {config : Config} {node : Node} {e : Event}
    (h : (step config node e).reputation ≠ node.reputation) : ∃ id, Resolves node e id := by
  rcases step_cases config node e with ⟨-, hsame⟩ | hresolve
  · exact absurd hsame h
  · obtain ⟨r, world, id, outcome, resolver, rfl, hop, hverify, disputes, hresolve, -⟩ := hresolve
    obtain ⟨d, hd, -⟩ := resolve_eq_ok.mp hresolve
    exact ⟨id, r, world, outcome, rfl, hop, hverify, d, hd⟩

/-! ### Who decides -/

/-- The disputes that a step closes are closed by an authority, and a reputation moves with
such a dispute only. -/
def DecidedByAuthority (config : Config) (before : List Event) (e : Event) : Prop :=
  let node := runFrom config before
  let after := runFrom config (before ++ [e])
  (∀ id, Closes node.disputes after.disputes id → Authorised config node id e) ∧
    (after.reputation ≠ node.reputation →
      ∃ id, Closes node.disputes after.disputes id ∧ Authorised config node id e)

/-- In every run, disputes are decided by an authority if and only if whoever resolves one is
an authority. -/
theorem decided_by_authority_iff (config : Config) (run : List Event) :
    (∀ before e, before ++ [e] <+: run → DecidedByAuthority config before e) ↔
      ∀ before e, before ++ [e] <+: run → ∀ id, Resolves (runFrom config before) e id →
        Authorised config (runFrom config before) id e := by
  have hstep : ∀ before e, runFrom config (before ++ [e]) =
      step config (runFrom config before) e := fun _ _ => List.foldl_concat ..
  refine forall_congr' fun before => forall_congr' fun e => imp_congr_right fun _ => ?_
  unfold DecidedByAuthority
  simp only [hstep, closes_step_iff]
  constructor
  · exact fun h => h.1
  · intro h
    refine ⟨h, fun hne => ?_⟩
    obtain ⟨id, hid⟩ := resolves_of_reputation_ne hne
    exact ⟨id, hid, h id hid⟩

end Node

/-! ### A dispute decided by its opener -/

section Fixed

attribute [local instance] Smt.guardedSha3 Iteration.stored

/-- A score does not decay. -/
@[reducible] def unworn : HalfLife := ⟨fun _ => F64.ofNat 1⟩

attribute [local instance] unworn

/-- The holder of the first key is the authority. -/
def firstKeyConfig : Config := ⟨Record.sha3Hex [1], F64.ofNat 604800⟩

def oneAttestor : World := ⟨fun _ => [.text "witness"], fun _ => false⟩

/-- The holder of the second key contests a record, and upholds the dispute. -/
def outsiderRun : List Event :=
  [.record { Ledger.plainRecord "dispute" 2 10 with
      metadata := [(.text "dispute_op", .string (.text "open")),
        (.text "dispute_reason", .string (.text "bad")),
        (.text "dispute_record_id", .string (.text "target"))] } oneAttestor,
    .record { Ledger.plainRecord "verdict" 2 20 with
      metadata := [(.text "dispute_id", .string (.text "dispute")),
        (.text "dispute_op", .string (.text "resolve")),
        (.text "dispute_outcome", .string (.text "upheld"))] } oneAttestor]

/-- The dispute is resolved, and the attestor's score falls from 50 to 45. -/
theorem outsider_decides :
    Record.sha3Hex [2] ≠ firstKeyConfig.genesisAuthority ∧
    ((runFrom firstKeyConfig outsiderRun).disputes.lookup (.text "dispute")).map
      (fun d => (d.opener, d.status, d.governanceProposalId, d.resolution.map (·.resolver))) =
        some (Record.sha3Hex [2], .resolved, none, some (.text "governance")) ∧
    ((runFrom firstKeyConfig outsiderRun).reputation.lookup (.text "witness")).map (·.score) =
      some (F64.ofNat 45) := by
  refine ⟨?_, ?_, ?_⟩ <;> decide +kernel

end Fixed

end ElaraMesh.Network
