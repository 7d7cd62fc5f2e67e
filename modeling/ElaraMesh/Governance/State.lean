import ElaraMesh.Ledger.Outcome
import ElaraMesh.Ledger.Records
import ElaraMesh.Lib.Table
import ElaraMesh.Record.Metadata

/-!
# Governance: proposals, votes and parameters

Stakers propose, vote and delegate their votes.  A proposal that passes may be executed
after a delay, and one of the category *parameter* then changes a parameter of the network.

## Main definitions

* `Proposal`, `Vote`, `Committee`, `DelegationEntry`, `GovernableParams`,
  `GovernanceState` — the state.
* `createProposal`, `castVoteWithOwn`, `cancelProposal`, `executeProposal`, `delegate`,
  `undelegate` — its operations.
-/

namespace ElaraMesh.Governance

open Ledger (Message Stop governanceError baseUnitsPerBeat)
open Record (Str ZoneId)

/-! ### Types -/

inductive ProposalCategory where
  | zoneLocal : ProposalCategory
  | parameter : ProposalCategory
  | critical : ProposalCategory
  | protocolUpgrade : ProposalCategory
  deriving DecidableEq

inductive ProposalStatus where
  | active : ProposalStatus
  | passed : ProposalStatus
  | rejected : ProposalStatus
  | expired : ProposalStatus
  | executed : ProposalStatus
  | cancelled : ProposalStatus
  | vetoed : ProposalStatus
  deriving DecidableEq

inductive VoteDirection where
  | isFor : VoteDirection
  | against : VoteDirection
  | abstain : VoteDirection
  deriving DecidableEq

structure Vote where
  voter : Str
  /-- The weight, with what is delegated to the voter. -/
  stake : ℕ
  direction : VoteDirection
  votedAt : F64
  /-- The voter's own stake, as it was when the vote was cast. -/
  ownStake : Option ℕ
  deriving DecidableEq

structure Committee where
  members : List Str
  vrfSeed : Str
  isRevote : Bool
  selectedAt : F64
  challengeDeadline : Option F64
  challenger : Option Str
  deriving DecidableEq

structure Proposal where
  id : Str
  proposer : Str
  category : ProposalCategory
  title : Str
  description : Str
  createdAt : F64
  votingDeadline : F64
  status : ProposalStatus
  passedAt : Option F64
  votes : List Vote
  committee : Option Committee
  deriving DecidableEq

structure DelegationEntry where
  delegator : Str
  delegate : Str
  createdAt : F64
  active : Bool
  deriving DecidableEq

/-- The parameters of the network that a vote may change. -/
structure GovernableParams where
  propagationRateLimitPerHour : ℕ
  epochSealIntervalSecs : F64
  witnessRewardMicros : ℕ
  recordRetentionSecs : F64
  stakeThroughputRatio : ℕ
  deriving DecidableEq

structure ParamChange where
  name : Str
  oldValue : Str
  newValue : Str
  proposalId : Str
  appliedAt : F64
  deriving DecidableEq

abbrev ProposalStatusCounts : Type := ProposalStatus → ℕ

structure AnchorVetoSignal where
  anchorIdentity : Str
  zone : ZoneId
  signaledAt : F64
  deriving DecidableEq

structure AnchorVetoState where
  signals : Table Str (List AnchorVetoSignal)
  /-- The number of vetoes by the zone and the start of the quarter. -/
  vetoesByQuarter : Table (ZoneId × ℕ) ℕ

structure GovernanceState where
  proposals : Table Str Proposal
  delegations : Table Str DelegationEntry
  params : GovernableParams
  paramChanges : List ParamChange
  anchorVetoes : AnchorVetoState
  activeDelegationsCount : ℕ
  proposalStatusCounts : ProposalStatusCounts

/-! ### Constants -/

def votingPeriodSecs : F64 := F64.ofNat (14 * 24 * 3600)

def committeeVotingPeriodSecs : F64 := F64.ofNat (14 * 24 * 3600)

def committeeChallengePeriodSecs : F64 := F64.ofNat (30 * 24 * 3600)

/-- Seconds from the passing of a proposal to its execution. -/
def executionDelaySecs : F64 := F64.ofNat (30 * 24 * 3600)

def minProposalStake : ℕ := 1000 * baseUnitsPerBeat

/-! ### Proposals -/

namespace ProposalStatusCounts

def inc (c : ProposalStatusCounts) (status : ProposalStatus) : ProposalStatusCounts :=
  Function.update c status (U64.satAdd (c status) 1)

def dec (c : ProposalStatusCounts) (status : ProposalStatus) : ProposalStatusCounts :=
  Function.update c status (U64.satSub (c status) 1)

end ProposalStatusCounts

namespace Proposal

def isVotingOpen (p : Proposal) (now : F64) : Bool :=
  p.status = .active && now.lt p.votingDeadline

def hasVoted (p : Proposal) (voter : Str) : Bool := p.votes.any fun v => v.voter = voter

def canExecute (p : Proposal) (now : F64) : Bool :=
  p.status = .passed && p.passedAt.any fun t => (t.add executionDelaySecs).le now

/-- Without a committee the vote is open to all. -/
def isCommitteeMember (p : Proposal) (voter : Str) : Bool :=
  p.committee.all fun c => voter ∈ c.members

end Proposal

namespace GovernableParams

def default : GovernableParams where
  propagationRateLimitPerHour := 120
  epochSealIntervalSecs := F64.ofNat 300
  witnessRewardMicros := 1000000000
  recordRetentionSecs := F64.ofNat 0
  stakeThroughputRatio := 100000000

end GovernableParams

namespace GovernanceState

def new : GovernanceState where
  proposals := ∅
  delegations := ∅
  params := .default
  paramChanges := []
  anchorVetoes := ⟨∅, ∅⟩
  activeDelegationsCount := 0
  proposalStatusCounts := fun _ => 0

def recordStatusTransition (g : GovernanceState) (old new : ProposalStatus) : GovernanceState :=
  if old = new then g
  else { g with proposalStatusCounts := (g.proposalStatusCounts.dec old).inc new }

def find (g : GovernanceState) (proposalId : Str) : Except Stop Proposal :=
  match g.proposals.lookup proposalId with
  | some p => .ok p
  | none => .error (governanceError [.text "proposal not found: ", .str proposalId])

def createProposal (g : GovernanceState) (proposalId proposer : Str) (category : ProposalCategory)
    (title description : Str) (governanceStake : ℕ) (timestamp : F64)
    (committee : Option Committee) : Except Stop GovernanceState :=
  if governanceStake < minProposalStake then
    .error (governanceError [.text "insufficient governance stake: ", .num governanceStake,
      .text " < ", .num minProposalStake, .text " required"])
  else if proposalId ∈ g.proposals then
    .error (governanceError [.text "proposal already exists: ", .str proposalId])
  else if category = .critical ∧ committee = none then
    .error (governanceError [.text "critical proposals require a randomly selected committee"])
  else
    let votingPeriod := if committee.isSome then committeeVotingPeriodSecs else votingPeriodSecs
    let proposal : Proposal :=
      { id := proposalId
        proposer, category, title, description
        createdAt := timestamp
        votingDeadline := timestamp.add votingPeriod
        status := .active
        passedAt := none
        votes := []
        committee }
    .ok { g with
      proposals := g.proposals.insert proposalId proposal
      proposalStatusCounts := g.proposalStatusCounts.inc .active }

def castVoteWithOwn (g : GovernanceState) (proposalId voter : Str) (direction : VoteDirection)
    (governanceStake ownStake : ℕ) (timestamp : F64) : Except Stop GovernanceState := do
  let p ← g.find proposalId
  if !p.isVotingOpen timestamp then
    .error (governanceError [.text "voting period has ended"])
  else if p.hasVoted voter then
    .error (governanceError [.text "identity ", .str voter, .text " has already voted on ",
      .str proposalId])
  else if governanceStake = 0 then
    .error (governanceError [.text "must have governance stake to vote"])
  else if !p.isCommitteeMember voter then
    .error (governanceError [.text "identity ", .str voter,
      .text " is not on the committee for ", .str proposalId])
  else
    let vote : Vote :=
      { voter, stake := governanceStake, direction, votedAt := timestamp, ownStake := some ownStake }
    return { g with proposals := g.proposals.insert proposalId { p with votes := p.votes ++ [vote] } }

def cancelProposal (g : GovernanceState) (proposalId canceller : Str) :
    Except Stop GovernanceState := do
  let p ← g.find proposalId
  if p.status ≠ .active then
    .error (governanceError [.text "can only cancel active proposals"])
  else if p.proposer ≠ canceller then
    .error (governanceError [.text "only the proposer can cancel"])
  else
    let g := { g with proposals := g.proposals.insert proposalId { p with status := .cancelled } }
    return g.recordStatusTransition p.status .cancelled

/-- What stands against the execution of a proposal by its committee. -/
def committeeFault (c : Committee) (now : F64) : Option Message :=
  if c.challengeDeadline.any fun deadline => now.lt deadline then
    some [.text "committee challenge period has not elapsed"]
  else if c.challenger.isSome ∧ !c.isRevote then
    some [.text "committee verdict is challenged; awaiting re-vote"]
  else none

def executeProposal (g : GovernanceState) (proposalId : Str) (now : F64) :
    Except Stop GovernanceState := do
  let p ← g.find proposalId
  if !p.canExecute now then
    .error (governanceError
      [.text "proposal cannot be executed yet (not passed or delay not elapsed)"])
  else
    match p.committee.bind fun c => committeeFault c now with
    | some m => .error (governanceError m)
    | none =>
      let g := { g with proposals := g.proposals.insert proposalId { p with status := .executed } }
      return g.recordStatusTransition p.status .executed

/-! ### Delegations -/

def delegate (g : GovernanceState) (delegator delegate : Str) (timestamp : F64) :
    Except Stop GovernanceState :=
  if delegator = delegate then
    .error (governanceError [.text "cannot delegate to self"])
  else
    match (g.delegations.lookup delegator).filter fun d => d.active with
    | some existing =>
      .error (governanceError [.text "already delegated to ", .str existing.delegate,
        .text "; undelegate first"])
    | none =>
      if (g.delegations.lookup delegate).any fun d => d.active ∧ d.delegate = delegator then
        .error (governanceError
          [.text "circular delegation: delegate has already delegated to you"])
      else
        .ok { g with
          delegations := g.delegations.insert delegator
            { delegator, delegate, createdAt := timestamp, active := true }
          activeDelegationsCount := U64.satAdd g.activeDelegationsCount 1 }

def undelegate (g : GovernanceState) (delegator : Str) : Except Stop GovernanceState :=
  match g.delegations.lookup delegator with
  | none => .error (governanceError [.text "no active delegation"])
  | some d =>
    if !d.active then .error (governanceError [.text "delegation already inactive"])
    else
      .ok { g with
        delegations := g.delegations.insert delegator { d with active := false }
        activeDelegationsCount := U64.satSub g.activeDelegationsCount 1 }

end GovernanceState

end ElaraMesh.Governance
