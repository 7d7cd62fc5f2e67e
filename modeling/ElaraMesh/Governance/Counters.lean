import ElaraMesh.Governance.Tally

/-!
# Governance: the counters of proposals and delegations

The number of proposals of each status and the number of active delegations are kept beside the
tables and adjusted with every change.  An operation changes at most one entry of one table, and a
status only together with the counters; so they always say what a recount of the tables would.

## Main results

* `change_of_call` — every operation makes one of these changes.
* `counters_exact` — after every run the counters are those of a recount.
-/

namespace ElaraMesh.Governance

open Ledger (Stop governanceError)
open Record (Str ZoneId)

/-! ### Challenges and vetoes -/

/-- The share of the anchor nodes that a veto takes more than. -/
def anchorVetoThreshold : F64 := F64.round false (3 * F64.one) 2

def anchorVetoMaxPerQuarter : ℕ := 2

def quarterSecs : F64 := F64.ofNat (90 * 24 * 3600)

namespace AnchorVetoState

def quarterStart (timestamp : F64) : ℕ :=
  let secs := timestamp.toNat U64.max
  let quarterSecs := quarterSecs.toNat U64.max
  secs / quarterSecs * quarterSecs

def rateLimited (v : AnchorVetoState) (zone : ZoneId) (timestamp : F64) : Bool :=
  anchorVetoMaxPerQuarter ≤ v.vetoesByQuarter.getD (zone, quarterStart timestamp) 0

/-- The state with a signal, unless the anchor has signalled before. -/
def signalVeto (v : AnchorVetoState) (proposalId anchorIdentity : Str) (zone : ZoneId)
    (timestamp : F64) : Option AnchorVetoState :=
  let signals := v.signals.getD proposalId []
  if signals.any fun s => s.anchorIdentity = anchorIdentity then none
  else some { v with
    signals := v.signals.insert proposalId (signals ++ [⟨anchorIdentity, zone, timestamp⟩]) }

/-- Have more than three quarters of the anchor nodes signalled? -/
def checkThreshold (v : AnchorVetoState) (proposalId : Str) (totalAnchorNodes : ℕ) : Bool :=
  if totalAnchorNodes = 0 then false
  else
    let signalCount := (v.signals.getD proposalId []).length
    anchorVetoThreshold.lt ((F64.ofNat signalCount).div (F64.ofNat totalAnchorNodes))

def recordVeto (v : AnchorVetoState) (zone : ZoneId) (timestamp : F64) : AnchorVetoState :=
  { v with
    vetoesByQuarter := v.vetoesByQuarter.upsert (zone, quarterStart timestamp) 0 (· + 1) }

end AnchorVetoState

namespace GovernanceState

/-- Challenge the verdict of a committee, which opens the vote again. -/
def challengeCommittee (g : GovernanceState) (proposalId challenger : Str) (governanceStake : ℕ)
    (now : F64) : Except Stop GovernanceState :=
  if governanceStake < minProposalStake then
    .error (governanceError [.text "insufficient stake to challenge: ", .num governanceStake,
      .text " < ", .num minProposalStake, .text " required"])
  else do
    let p ← g.find proposalId
    if p.status ≠ .passed then
      .error (governanceError [.text "can only challenge passed proposals"])
    else
      match p.committee with
      | none => .error (governanceError [.text "proposal has no committee (not a critical proposal)"])
      | some c =>
        if c.isRevote then
          .error (governanceError [.text "re-vote verdicts cannot be challenged"])
        else if c.challenger.isSome then
          .error (governanceError [.text "proposal has already been challenged"])
        else
          match c.challengeDeadline with
          | none =>
            .error (governanceError [.text "challenge period not set (proposal not yet settled)"])
          | some deadline =>
            if deadline.le now then
              .error (governanceError [.text "challenge period has expired"])
            else
              let p' : Proposal :=
                { p with
                  committee := some { c with challenger := some challenger }
                  status := .active
                  passedAt := none
                  votes := [] }
              let g := { g with proposals := g.proposals.insert proposalId p' }
              return g.recordStatusTransition p.status .active

/-- Give a challenged proposal a larger committee and a new deadline. -/
def applyRevoteCommittee (g : GovernanceState) (proposalId : Str) (revoteCommittee : Committee)
    (now : F64) : Except Stop GovernanceState := do
  let p ← g.find proposalId
  if p.status ≠ .active then
    .error (governanceError [.text "proposal must be active for re-vote"])
  else
    match p.committee with
    | none => .error (governanceError [.text "no existing committee"])
    | some existing =>
      if existing.challenger = none then
        .error (governanceError [.text "proposal has not been challenged"])
      else
        let p' : Proposal :=
          { p with
            votingDeadline := now.add committeeVotingPeriodSecs
            committee := some revoteCommittee }
        return { g with proposals := g.proposals.insert proposalId p' }

/-- Signal the veto of an anchor node; with enough signals the proposal is vetoed. -/
def anchorVetoSignal (g : GovernanceState) (proposalId anchorIdentity : Str) (zone : ZoneId)
    (totalAnchorNodes : ℕ) (timestamp : F64) : Except Stop (Bool × GovernanceState) := do
  let p ← g.find proposalId
  if p.status ≠ .active ∧ p.status ≠ .passed then
    .error (governanceError [.text "can only veto active or passed proposals"])
  else if g.anchorVetoes.rateLimited zone timestamp then
    .error (governanceError [.text "zone ", .path zone.path,
      .text " has exhausted veto quota for this quarter (max ", .num anchorVetoMaxPerQuarter,
      .text ")"])
  else
    match g.anchorVetoes.signalVeto proposalId anchorIdentity zone timestamp with
    | none =>
      .error (governanceError [.text "anchor ", .str anchorIdentity,
        .text " has already signaled on ", .str proposalId])
    | some vetoes =>
      if vetoes.checkThreshold proposalId totalAnchorNodes then
        let g := { g with proposals := g.proposals.insert proposalId { p with status := .vetoed } }
        return (true, { g.recordStatusTransition p.status .vetoed with
          anchorVetoes := vetoes.recordVeto zone timestamp })
      else return (false, { g with anchorVetoes := vetoes })

/-! ### Recounts -/

def recountActiveDelegations (g : GovernanceState) : GovernanceState :=
  { g with
    activeDelegationsCount := (g.delegations.values.filter fun d => d.active).length }

def recountProposalStatuses (g : GovernanceState) : GovernanceState :=
  { g with
    proposalStatusCounts := g.proposals.values.foldl (fun counts p => counts.inc p.status) fun _ => 0 }

end GovernanceState

/-! ### Runs -/

inductive GovernanceCall where
  | createProposal (proposalId proposer : Str) (category : ProposalCategory)
      (title description : Str) (governanceStake : ℕ) (timestamp : F64)
      (committee : Option Committee) : GovernanceCall
  | castVoteWithOwn (proposalId voter : Str) (direction : VoteDirection)
      (governanceStake ownStake : ℕ) (timestamp : F64) : GovernanceCall
  | cancelProposal (proposalId canceller : Str) : GovernanceCall
  | settleProposal (proposalId : Str) (totalGovernanceStaked : ℕ) (now : F64) : GovernanceCall
  | executeProposal (proposalId : Str) (now : F64) : GovernanceCall
  | challengeCommittee (proposalId challenger : Str) (governanceStake : ℕ) (now : F64) :
      GovernanceCall
  | applyRevoteCommittee (proposalId : Str) (revoteCommittee : Committee) (now : F64) :
      GovernanceCall
  | anchorVetoSignal (proposalId anchorIdentity : Str) (zone : ZoneId) (totalAnchorNodes : ℕ)
      (timestamp : F64) : GovernanceCall
  | delegate (delegator delegate : Str) (timestamp : F64) : GovernanceCall
  | undelegate (delegator : Str) : GovernanceCall

namespace GovernanceState

/-- The state after an operation that succeeds. -/
def attempt (g : GovernanceState) : GovernanceCall → Except Stop GovernanceState
  | .createProposal id proposer category title description stake timestamp committee =>
    g.createProposal id proposer category title description stake timestamp committee
  | .castVoteWithOwn id voter direction stake own timestamp =>
    g.castVoteWithOwn id voter direction stake own timestamp
  | .cancelProposal id canceller => g.cancelProposal id canceller
  | .settleProposal id total now => (g.settleProposal id total now).map Prod.snd
  | .executeProposal id now => g.executeProposal id now
  | .challengeCommittee id challenger stake now => g.challengeCommittee id challenger stake now
  | .applyRevoteCommittee id committee now => g.applyRevoteCommittee id committee now
  | .anchorVetoSignal id anchor zone total timestamp =>
    (g.anchorVetoSignal id anchor zone total timestamp).map Prod.snd
  | .delegate delegator delegate timestamp => g.delegate delegator delegate timestamp
  | .undelegate delegator => g.undelegate delegator

/-- The state after an operation; one that fails changes nothing. -/
def step (g : GovernanceState) (call : GovernanceCall) : GovernanceState :=
  match g.attempt call with
  | .ok g' => g'
  | .error _ => g

/-- The state after some operations from the start. -/
def run (calls : List GovernanceCall) : GovernanceState := calls.foldl step .new

end GovernanceState

/-! ### What an operation changes -/

def ProposalStatusCounts.moved (c : ProposalStatusCounts) (old new : ProposalStatus) :
    ProposalStatusCounts :=
  if old = new then c else (c.dec old).inc new

def SameProposals (g g' : GovernanceState) : Prop :=
  g'.proposals = g.proposals ∧ g'.proposalStatusCounts = g.proposalStatusCounts

def SameDelegations (g g' : GovernanceState) : Prop :=
  g'.delegations = g.delegations ∧ g'.activeDelegationsCount = g.activeDelegationsCount

/-- What a successful operation does to the tables and the counters. -/
inductive Change (g g' : GovernanceState) : Prop where
  | same : SameProposals g g' → SameDelegations g g' → Change g g'
  | opened (k : Str) (p : Proposal) : g.proposals.lookup k = none →
      g'.proposals = g.proposals.insert k p →
      g'.proposalStatusCounts = g.proposalStatusCounts.inc p.status →
      SameDelegations g g' → Change g g'
  | revised (k : Str) (p p' : Proposal) : g.proposals.lookup k = some p →
      g'.proposals = g.proposals.insert k p' →
      g'.proposalStatusCounts = g.proposalStatusCounts.moved p.status p'.status →
      SameDelegations g g' → Change g g'
  | delegated (k : Str) (d : DelegationEntry) :
      ((g.delegations.lookup k).filter fun d => d.active) = none → d.active = true →
      g'.delegations = g.delegations.insert k d →
      g'.activeDelegationsCount = U64.satAdd g.activeDelegationsCount 1 →
      SameProposals g g' → Change g g'
  | undelegated (k : Str) (d d' : DelegationEntry) :
      g.delegations.lookup k = some d → d.active = true → d'.active = false →
      g'.delegations = g.delegations.insert k d' →
      g'.activeDelegationsCount = U64.satSub g.activeDelegationsCount 1 →
      SameProposals g g' → Change g g'

section Calls

variable {g g' : GovernanceState}

variable {id : Str} {p : Proposal} {stake : ℕ} {timestamp now : F64}

theorem find_eq_ok (h : g.find id = .ok p) :
    g.proposals.lookup id = some p := by
  unfold GovernanceState.find at h
  split at h
  · next q hq =>
    cases h
    exact hq
  · cases h

/-- A proposal written back together with the counters. -/
theorem revised_of_transition {p' : Proposal} {old new : ProposalStatus}
    (hp : g.proposals.lookup id = some p) (hold : p.status = old) (hnew : p'.status = new) :
    Change g (({ g with proposals := g.proposals.insert id p' } :
      GovernanceState).recordStatusTransition old new) := by
  subst hold hnew
  refine .revised id p p' hp ?_ ?_ ?_
  all_goals
    unfold GovernanceState.recordStatusTransition
    split <;> simp_all [ProposalStatusCounts.moved, SameDelegations]

/-- A proposal written back with the same status. -/
theorem revised_of_status {p' : Proposal} (hp : g.proposals.lookup id = some p)
    (hstatus : p'.status = p.status) :
    Change g { g with proposals := g.proposals.insert id p' } :=
  .revised id p p' hp rfl (if_pos hstatus.symm).symm ⟨rfl, rfl⟩

/-- What is kept beside the tables does not matter. -/
theorem Change.withVetoes (h : Change g g') (vetoes : AnchorVetoState) :
    Change g { g' with anchorVetoes := vetoes } := by
  cases h with
  | same hproposals hdelegations => exact .same hproposals hdelegations
  | opened k p hnew hproposals hcounts hsame => exact .opened k p hnew hproposals hcounts hsame
  | revised k p p' hp hproposals hcounts hsame => exact .revised k p p' hp hproposals hcounts hsame
  | delegated k d hnone hactive hdelegations hcount hsame =>
    exact .delegated k d hnone hactive hdelegations hcount hsame
  | undelegated k d d' hd hactive hpassive hdelegations hcount hsame =>
    exact .undelegated k d d' hd hactive hpassive hdelegations hcount hsame

theorem change_of_createProposal {proposer : Str} {category : ProposalCategory}
    {title description : Str} {committee : Option Committee}
    (h : g.createProposal id proposer category title description stake timestamp committee =
      .ok g') : Change g g' := by
  unfold GovernanceState.createProposal at h
  split at h
  · cases h
  split at h
  · cases h
  next hnew =>
  split at h
  · cases h
  · cases h
    exact .opened id _ (AList.lookup_eq_none.mpr hnew) rfl rfl ⟨rfl, rfl⟩

theorem change_of_castVote {voter : Str} {direction : VoteDirection} {own : ℕ}
    (h : g.castVoteWithOwn id voter direction stake own timestamp = .ok g') :
    Change g g' := by
  obtain ⟨p, hp, h⟩ := Tx.bind_eq_ok.mp h
  split at h
  · cases h
  split at h
  · cases h
  split at h
  · cases h
  split at h
  · cases h
  · cases h
    exact revised_of_status (find_eq_ok hp) rfl

theorem change_of_cancelProposal {canceller : Str} (h : g.cancelProposal id canceller = .ok g') :
    Change g g' := by
  obtain ⟨p, hp, h⟩ := Tx.bind_eq_ok.mp h
  split at h
  · cases h
  split at h
  · cases h
  · cases h
    exact revised_of_transition (find_eq_ok hp) rfl rfl

theorem status_settled (p : Proposal) (outcome : ProposalStatus) (now : F64) :
    (p.settled outcome now).status = outcome := by
  unfold Proposal.settled
  split <;> rfl

theorem change_of_settleProposal {total : ℕ} {outcome : ProposalStatus}
    (h : g.settleProposal id total now = .ok (outcome, g')) : Change g g' := by
  obtain ⟨p, hp, h⟩ := Tx.bind_eq_ok.mp h
  split at h
  · cases h
  next hactive =>
  split at h
  · cases h
  split at h
  · cases h
  · cases h
    exact revised_of_transition (find_eq_ok hp) (not_not.mp hactive) (status_settled _ _ _)

theorem change_of_executeProposal (h : g.executeProposal id now = .ok g') :
    Change g g' := by
  obtain ⟨p, hp, h⟩ := Tx.bind_eq_ok.mp h
  split at h
  · cases h
  split at h
  · cases h
  · cases h
    exact revised_of_transition (find_eq_ok hp) rfl rfl

theorem change_of_challengeCommittee {challenger : Str}
    (h : g.challengeCommittee id challenger stake now = .ok g') : Change g g' := by
  unfold GovernanceState.challengeCommittee at h
  split at h
  · cases h
  obtain ⟨p, hp, h⟩ := Tx.bind_eq_ok.mp h
  split at h
  · cases h
  split at h
  · cases h
  split at h
  · cases h
  split at h
  · cases h
  split at h
  · cases h
  split at h
  · cases h
  · cases h
    exact revised_of_transition (find_eq_ok hp) rfl rfl

theorem change_of_applyRevoteCommittee {committee : Committee}
    (h : g.applyRevoteCommittee id committee now = .ok g') : Change g g' := by
  obtain ⟨p, hp, h⟩ := Tx.bind_eq_ok.mp h
  split at h
  · cases h
  split at h
  · cases h
  split at h
  · cases h
  · cases h
    exact revised_of_status (find_eq_ok hp) rfl

theorem change_of_anchorVetoSignal {anchor : Str} {zone : ZoneId} {total : ℕ}
    {vetoed : Bool} (h : g.anchorVetoSignal id anchor zone total timestamp = .ok (vetoed, g')) :
    Change g g' := by
  obtain ⟨p, hp, h⟩ := Tx.bind_eq_ok.mp h
  split at h
  · cases h
  split at h
  · cases h
  split at h
  · cases h
  split at h
  · cases h
    exact (revised_of_transition (find_eq_ok hp) rfl rfl).withVetoes _
  · cases h
    exact .same ⟨rfl, rfl⟩ ⟨rfl, rfl⟩

theorem change_of_delegate {delegator delegate : Str}
    (h : g.delegate delegator delegate timestamp = .ok g') : Change g g' := by
  unfold GovernanceState.delegate at h
  split at h
  · cases h
  split at h
  · cases h
  next hnone =>
  split at h
  · cases h
  · cases h
    exact .delegated delegator _ hnone rfl rfl rfl ⟨rfl, rfl⟩

theorem change_of_undelegate {delegator : Str} (h : g.undelegate delegator = .ok g') :
    Change g g' := by
  unfold GovernanceState.undelegate at h
  split at h
  · cases h
  next d hd =>
  split at h
  · cases h
  next hactive =>
  cases h
  have hactive : d.active = true := by simpa using hactive
  exact .undelegated delegator d { d with active := false } hd hactive rfl rfl rfl ⟨rfl, rfl⟩

/-- Every operation makes one of the changes. -/
theorem change_of_call {call : GovernanceCall} (h : g.attempt call = .ok g') : Change g g' := by
  cases call with
  | createProposal => exact change_of_createProposal h
  | castVoteWithOwn => exact change_of_castVote h
  | cancelProposal => exact change_of_cancelProposal h
  | settleProposal id total now =>
    obtain ⟨r, hr, rfl⟩ := Tx.map_eq_ok.mp h
    exact change_of_settleProposal hr
  | executeProposal => exact change_of_executeProposal h
  | challengeCommittee => exact change_of_challengeCommittee h
  | applyRevoteCommittee => exact change_of_applyRevoteCommittee h
  | anchorVetoSignal id anchor zone total timestamp =>
    obtain ⟨r, hr, rfl⟩ := Tx.map_eq_ok.mp h
    exact change_of_anchorVetoSignal hr
  | delegate => exact change_of_delegate h
  | undelegate => exact change_of_undelegate h

theorem change_step (g : GovernanceState) (call : GovernanceCall) : Change g (g.step call) := by
  unfold GovernanceState.step
  split
  · next g' h => exact change_of_call h
  · exact .same ⟨rfl, rfl⟩ ⟨rfl, rfl⟩

end Calls

/-! ### The counters are exact -/

def hasStatus (status : ProposalStatus) (p : Proposal) : Bool := p.status = status

def statusCount (g : GovernanceState) (status : ProposalStatus) : ℕ :=
  (g.proposals.values.filter (hasStatus status)).length

def activeCount (g : GovernanceState) : ℕ := (g.delegations.values.filter fun d => d.active).length

/-- The counters say what is in the tables. -/
structure CountersExact (g : GovernanceState) : Prop where
  statuses : g.proposalStatusCounts = statusCount g
  delegations : g.activeDelegationsCount = activeCount g

/-- The tables have no more entries than can be counted. -/
structure Countable (g : GovernanceState) : Prop where
  proposals : g.proposals.entries.length ≤ U64.max
  delegations : g.delegations.entries.length ≤ U64.max

section Exact

variable {g g' : GovernanceState}

theorem statusCount_le (g : GovernanceState) (status : ProposalStatus) :
    statusCount g status ≤ g.proposals.entries.length :=
  (List.length_filter_le _ _).trans (List.length_map _).le

theorem activeCount_le (g : GovernanceState) : activeCount g ≤ g.delegations.entries.length :=
  (List.length_filter_le _ _).trans (List.length_map _).le

variable {k : Str}

/-- A proposal written counts, and the one it replaces does no longer. -/
theorem statusCount_insert {p' : Proposal}
    (h : g'.proposals = g.proposals.insert k p') (status : ProposalStatus) :
    statusCount g' status +
        ((g.proposals.lookup k).map fun p => if hasStatus status p then 1 else 0).getD 0 =
      statusCount g status + if hasStatus status p' then 1 else 0 := by
  have hinsert := Table.total_insert (fun _ p => if hasStatus status p then 1 else 0) g.proposals k p'
  rwa [Table.total_indicator, Table.total_indicator, ← h] at hinsert

theorem activeCount_insert {d' : DelegationEntry} (h : g'.delegations = g.delegations.insert k d') :
    activeCount g' +
        ((g.delegations.lookup k).map fun d => if d.active then 1 else 0).getD 0 =
      activeCount g + if d'.active then 1 else 0 := by
  have hinsert := Table.total_insert (fun _ (d : DelegationEntry) => if d.active then 1 else 0)
    g.delegations k d'
  rwa [Table.total_indicator (fun d : DelegationEntry => d.active),
    Table.total_indicator (fun d : DelegationEntry => d.active), ← h] at hinsert

theorem Change.countable (h : Change g g') (hfits : Countable g') : Countable g := by
  cases h with
  | same hproposals hdelegations =>
    exact ⟨hproposals.1 ▸ hfits.proposals, hdelegations.1 ▸ hfits.delegations⟩
  | opened k p _ hproposals _ hsame | revised k _ p _ hproposals _ hsame =>
    refine ⟨(Table.length_le_length_insert _ k p).trans ?_, hsame.1 ▸ hfits.delegations⟩
    exact hproposals ▸ hfits.proposals
  | delegated k d _ _ hdelegations _ hsame | undelegated k _ d _ _ _ hdelegations _ hsame =>
    refine ⟨hsame.1 ▸ hfits.proposals, (Table.length_le_length_insert _ k d).trans ?_⟩
    exact hdelegations ▸ hfits.delegations

theorem statuses_of_same (hexact : CountersExact g) (h : SameProposals g g') :
    g'.proposalStatusCounts = statusCount g' := by
  unfold statusCount
  rw [h.1, h.2]
  exact hexact.statuses

theorem delegations_of_same (hexact : CountersExact g) (h : SameDelegations g g') :
    g'.activeDelegationsCount = activeCount g' := by
  unfold activeCount
  rw [h.1, h.2]
  exact hexact.delegations

theorem inc_statusCount {p : Proposal} (hnew : g.proposals.lookup k = none)
    (h : g'.proposals = g.proposals.insert k p) (hfits : Countable g') :
    ProposalStatusCounts.inc (statusCount g) p.status = statusCount g' := by
  funext status
  have hcount := statusCount_insert h status
  have hle := (statusCount_le g' status).trans hfits.proposals
  rw [hnew] at hcount
  unfold ProposalStatusCounts.inc
  rw [Function.update_apply]
  by_cases hs : status = p.status
  · subst hs
    simp [hasStatus] at hcount
    rw [if_pos rfl, U64.satAdd_eq_add (by omega)]
    omega
  · have hother : ¬ p.status = status := fun h => hs h.symm
    simp [hasStatus, hother] at hcount
    rw [if_neg hs, hcount]

/-- A proposal that changes its status counts under the new one. -/
theorem moved_statusCount {p p' : Proposal} (hp : g.proposals.lookup k = some p)
    (h : g'.proposals = g.proposals.insert k p') (hfits : Countable g') :
    ProposalStatusCounts.moved (statusCount g) p.status p'.status = statusCount g' := by
  funext status
  have hcount := statusCount_insert h status
  have hle := (statusCount_le g' status).trans hfits.proposals
  rw [hp, Option.map_some, Option.getD_some] at hcount
  unfold ProposalStatusCounts.moved
  by_cases hsame : p.status = p'.status
  · rw [if_pos hsame]
    unfold hasStatus at hcount
    rw [hsame] at hcount
    omega
  · rw [if_neg hsame]
    unfold ProposalStatusCounts.inc ProposalStatusCounts.dec U64.satSub
    simp only [Function.update_apply]
    unfold hasStatus at hcount
    by_cases hnew : status = p'.status
    · subst hnew
      simp [hsame] at hcount
      rw [if_pos rfl, if_neg (Ne.symm hsame), U64.satAdd_eq_add (by omega)]
      omega
    · have hnew' : ¬ p'.status = status := fun h => hnew h.symm
      by_cases hold : status = p.status
      · subst hold
        simp [hnew'] at hcount
        rw [if_neg hnew, if_pos rfl]
        omega
      · have hold' : ¬ p.status = status := fun h => hold h.symm
        simp [hnew', hold'] at hcount
        rw [if_neg hnew, if_neg hold, hcount]

/-- A change keeps the counters exact, as long as they do not saturate. -/
theorem CountersExact.change (hexact : CountersExact g) (h : Change g g') (hfits : Countable g') :
    CountersExact g' := by
  cases h with
  | same hproposals hdelegations =>
    exact ⟨statuses_of_same hexact hproposals, delegations_of_same hexact hdelegations⟩
  | opened k p hnew hproposals hcounts hsame =>
    refine ⟨?_, delegations_of_same hexact hsame⟩
    rw [hcounts, hexact.statuses, inc_statusCount hnew hproposals hfits]
  | revised k p p' hp hproposals hcounts hsame =>
    refine ⟨?_, delegations_of_same hexact hsame⟩
    rw [hcounts, hexact.statuses, moved_statusCount hp hproposals hfits]
  | delegated k d hnone hactive hdelegations hcount hsame =>
    refine ⟨statuses_of_same hexact hsame, ?_⟩
    have hinsert := activeCount_insert hdelegations
    have hle := (activeCount_le g').trans hfits.delegations
    have hbefore : ((g.delegations.lookup k).map fun d => if d.active then 1 else 0).getD 0 = 0 := by
      cases hd : g.delegations.lookup k with
      | none => rfl
      | some e =>
        rw [hd] at hnone
        have hpassive : e.active = false := by simpa using hnone
        simp [hpassive]
    rw [hbefore, hactive, if_pos rfl] at hinsert
    rw [hcount, hexact.delegations, U64.satAdd_eq_add (by omega)]
    exact hinsert.symm
  | undelegated k d d' hd hactive hpassive hdelegations hcount hsame =>
    refine ⟨statuses_of_same hexact hsame, ?_⟩
    have hinsert := activeCount_insert hdelegations
    rw [hd, Option.map_some, Option.getD_some, hactive, hpassive] at hinsert
    rw [hcount, hexact.delegations]
    unfold U64.satSub
    simp at hinsert
    omega

theorem countersExact_new : CountersExact GovernanceState.new := ⟨rfl, rfl⟩

/-- The counters are exact after every run. -/
theorem countersExact_run (calls : List GovernanceCall) (hfits : Countable (.run calls)) :
    CountersExact (.run calls) := by
  induction calls using List.reverseRecOn with
  | nil => exact countersExact_new
  | append_singleton calls call ih =>
    have hrun : GovernanceState.run (calls ++ [call]) = (GovernanceState.run calls).step call :=
      List.foldl_concat _ _ _ _
    rw [hrun] at hfits ⊢
    have hchange := change_step (GovernanceState.run calls) call
    exact (ih (hchange.countable hfits)).change hchange hfits

/-- The recount of the proposals adds one for each. -/
theorem foldl_inc (l : List Proposal) (counts : ProposalStatusCounts) (status : ProposalStatus)
    (hfits : counts status + (l.filter (hasStatus status)).length ≤ U64.max) :
    l.foldl (fun counts p => counts.inc p.status) counts status =
      counts status + (l.filter (hasStatus status)).length := by
  induction l generalizing counts with
  | nil => rfl
  | cons p l ih =>
    rw [List.foldl_cons]
    by_cases hp : status = p.status
    · have hhas : hasStatus status p = true := decide_eq_true hp.symm
      rw [List.filter_cons_of_pos hhas, List.length_cons] at hfits ⊢
      have hinc : counts.inc p.status status = counts status + 1 := by
        unfold ProposalStatusCounts.inc
        rw [Function.update_apply, if_pos hp, ← hp, U64.satAdd_eq_add (by omega)]
      rw [ih _ (by omega), hinc]
      omega
    · have hhas : ¬ hasStatus status p = true := fun h => hp (of_decide_eq_true h).symm
      rw [List.filter_cons_of_neg hhas] at hfits ⊢
      have hinc : counts.inc p.status status = counts status := by
        unfold ProposalStatusCounts.inc
        rw [Function.update_apply, if_neg hp]
      rw [ih _ (by omega), hinc]

end Exact

/-- After every run, of operations that succeed or fail, the counters are the numbers of proposals
of each status and of active delegations, and recounting changes nothing. -/
theorem counters_exact (calls : List GovernanceCall) (hfits : Countable (.run calls)) :
    (∀ status, (GovernanceState.run calls).proposalStatusCounts status =
      ((GovernanceState.run calls).proposals.values.filter fun p => p.status = status).length) ∧
    (GovernanceState.run calls).activeDelegationsCount =
      ((GovernanceState.run calls).delegations.values.filter fun d => d.active).length ∧
    (GovernanceState.run calls).recountProposalStatuses = .run calls ∧
    (GovernanceState.run calls).recountActiveDelegations = .run calls := by
  have hexact := countersExact_run calls hfits
  generalize GovernanceState.run calls = g at hfits hexact ⊢
  refine ⟨congrFun hexact.statuses, hexact.delegations, ?_, ?_⟩
  · have hrecount : (g.proposals.values.foldl (fun counts p => counts.inc p.status) fun _ => 0 :
        ProposalStatusCounts) = g.proposalStatusCounts := by
      rw [hexact.statuses]
      funext status
      rw [foldl_inc _ _ _ ?_, Nat.zero_add]
      · rfl
      · rw [Nat.zero_add]
        exact (statusCount_le g status).trans hfits.proposals
    unfold GovernanceState.recountProposalStatuses
    rw [hrecount]
  · have hrecount : (g.delegations.values.filter fun d => d.active).length =
        g.activeDelegationsCount := hexact.delegations.symm
    unfold GovernanceState.recountActiveDelegations
    rw [hrecount]

/-- A proposal that passes, and a delegation that is withdrawn and given again. -/
def sampleCalls : List GovernanceCall :=
  [.createProposal (.text "p") (.text "o") .parameter (.text "t") (.text "d") minProposalStake
    F64.zero none,
   .castVoteWithOwn (.text "p") (.text "x") .isFor 5 5 F64.zero,
   .settleProposal (.text "p") 5 (F64.ofNat 31536000),
   .cancelProposal (.text "p") (.text "o"),
   .delegate (.text "x") (.text "y") F64.zero,
   .undelegate (.text "x"),
   .delegate (.text "x") (.text "z") F64.zero]

theorem counters_exact_sample :
    Countable (.run sampleCalls) ∧
    (GovernanceState.run sampleCalls).proposalStatusCounts .passed = 1 ∧
    (GovernanceState.run sampleCalls).activeDelegationsCount = 1 ∧
    (GovernanceState.run sampleCalls).recountProposalStatuses = .run sampleCalls := by
  have hfits : Countable (.run sampleCalls) := ⟨by decide +kernel, by decide +kernel⟩
  obtain ⟨hstatuses, hdelegations, hrecount, -⟩ := counters_exact sampleCalls hfits
  exact ⟨hfits, (hstatuses .passed).trans (by decide +kernel),
    hdelegations.trans (by decide +kernel), hrecount⟩

end ElaraMesh.Governance
