import ElaraMesh.Governance.State
import Mathlib.Data.Nat.Sqrt

/-!
# Governance: weights and the tally

The weight of a vote is the voter's own stake with what is delegated to the voter by
identities that did not vote themselves.  It is fixed when the vote is cast and corrected
when the proposal is settled.

## Main definitions

* `convictionQ`, `dampenedPowerQ`, `identityCapQ`, `tallyVotes` — the power of votes in
  fixed point.
* `GovernanceState.settleProposal` — the outcome of a proposal.
-/

namespace ElaraMesh.Governance

open Ledger (Stop governanceError)
open Record (Str)

/-! ### Powers in fixed point -/

/-- One, in fixed point. -/
def convictionQOne : ℕ := 1000000000

/-- The inverse of Euler's number. -/
def eInvQ : ℕ := 367879441

/-- Seconds by which conviction grows. -/
def convictionTauSecs : ℕ := 7 * 24 * 3600

/-- The whole seconds of a time, none if it is negative or not finite. -/
def secsFloor (t : F64) : ℕ := if t.isFinite ∧ F64.zero.lt t then t.toNat U64.max else 0

/-- The alternating series of the exponential at `-r`, up to the term that vanishes. -/
def expSeries (rQ : ℕ) : (left n term acc : ℕ) → (subtract : Bool) → ℕ
  | 0, _, _, acc, _ => acc
  | left + 1, n, term, acc, subtract =>
    let denom := U128.satMul n convictionQOne
    let term := (U128.satMul term rQ + denom / 2) / denom
    if term = 0 then acc
    else expSeries rQ left (n + 1) term (if subtract then acc - term else U128.satAdd acc term)
      (!subtract)

def oneMinusExpNegQ (tSecs tauSecs : ℕ) : ℕ :=
  if tSecs = 0 ∨ tauSecs = 0 then 0
  else
    let q := convictionQOne
    let xQ := U128.satMul tSecs q / tauSecs
    let k := xQ / q
    if 42 ≤ k then q
    else
      let expRQ := expSeries (xQ % q) 16 1 q q true
      let expKQ := (fun e => (U128.satMul e eInvQ + q / 2) / q)^[k] q
      let expXQ := (U128.satMul expKQ expRQ + q / 2) / q
      q - min expXQ q

def convictionQ (stake durationSecs : ℕ) : ℕ :=
  if durationSecs = 0 ∨ stake = 0 then 0
  else U128.satMul stake (oneMinusExpNegQ durationSecs convictionTauSecs)

theorem oneMinusExpNegQ_le (tSecs tauSecs : ℕ) : oneMinusExpNegQ tSecs tauSecs ≤ convictionQOne := by
  unfold oneMinusExpNegQ
  split
  · exact Nat.zero_le _
  · dsimp only
    split
    · exact le_rfl
    · exact Nat.sub_le _ _

theorem convictionQ_le (stake durationSecs : ℕ) :
    convictionQ stake durationSecs ≤ stake * convictionQOne := by
  unfold convictionQ
  split
  · exact Nat.zero_le _
  · exact (min_le_left _ _).trans (Nat.mul_le_mul_left _ (oneMinusExpNegQ_le _ _))

def dampenedPowerQ (convictionQVal : ℕ) : ℕ := (U128.satMul convictionQVal convictionQOne).sqrt

/-- The largest power that one of `voterCount` voters may have. -/
def identityCapQ (totalPowerQ voterCount : ℕ) : ℕ :=
  if voterCount ≤ 1 then U128.max
  else
    let sqrtNQ := (U128.satMul (U128.satMul voterCount convictionQOne) convictionQOne).sqrt
    if sqrtNQ = 0 then U128.max else U128.satMul totalPowerQ convictionQOne / sqrtNQ

/-! ### The tally -/

structure VoteTally where
  forConvictionQ : ℕ
  againstConvictionQ : ℕ
  abstainConvictionQ : ℕ
  voterCount : ℕ
  rawParticipatingStake : ℕ
  deriving DecidableEq

/-- The order in which votes are tallied. -/
def voteLe (a b : Vote) : Prop :=
  a.voter < b.voter ∨ (a.voter = b.voter ∧ a.votedAt.totalKey ≤ b.votedAt.totalKey)

instance : DecidableRel voteLe := fun _ _ => by unfold voteLe; infer_instance

def votePower (nowSecs : ℕ) (v : Vote) : VoteDirection × ℕ :=
  (v.direction, dampenedPowerQ (convictionQ v.stake (U64.satSub nowSecs (secsFloor v.votedAt))))

def directionPower (capQ : ℕ) (powers : List (VoteDirection × ℕ)) (direction : VoteDirection) : ℕ :=
  (powers.filter fun p => p.1 = direction).foldl (fun acc p => U128.satAdd acc (min p.2 capQ)) 0

/-- The tally of a proposal without decay, unless the weights overflow. -/
def tallyVotes (proposal : Proposal) (now : F64) : Option VoteTally :=
  if proposal.votes = [] then some ⟨0, 0, 0, 0, 0⟩
  else do
    let rawParticipatingStake ← U64.checkedSum (proposal.votes.map Vote.stake)
    let powers := (proposal.votes.insertionSort voteLe).map (votePower (secsFloor now))
    let totalPowerQ := powers.foldl (fun acc p => U128.satAdd acc p.2) 0
    let capQ := identityCapQ totalPowerQ powers.length
    return {
      forConvictionQ := directionPower capQ powers .isFor
      againstConvictionQ := directionPower capQ powers .against
      abstainConvictionQ := directionPower capQ powers .abstain
      voterCount := powers.length
      rawParticipatingStake }

def tallyOutcome (tally : VoteTally) (totalGovernanceStaked : ℕ) : ProposalStatus :=
  let decisiveQ := U128.satAdd tally.forConvictionQ tally.againstConvictionQ
  if U128.satMul tally.rawParticipatingStake 4 < U128.satMul totalGovernanceStaked 1 then .expired
  else if decisiveQ = 0 then .expired
  else if U128.satMul decisiveQ 67 ≤ U128.satMul tally.forConvictionQ 100 then .passed
  else .rejected

/-- A proposal with its outcome; a committee's verdict may be challenged from then on. -/
def Proposal.settled (p : Proposal) (outcome : ProposalStatus) (now : F64) : Proposal :=
  if outcome = .passed then
    { p with
      status := outcome
      passedAt := some now
      committee := p.committee.map fun c =>
        if c.challengeDeadline = none then
          { c with challengeDeadline := some (now.add committeeChallengePeriodSecs) }
        else c }
  else { p with status := outcome }

/-- Settle a proposal whose voting period is over. -/
def GovernanceState.settleProposal (g : GovernanceState) (proposalId : Str)
    (totalGovernanceStaked : ℕ) (now : F64) : Except Stop (ProposalStatus × GovernanceState) := do
  let p ← g.find proposalId
  if p.status ≠ .active then
    .error (governanceError [.text "proposal is not active"])
  else if now.lt p.votingDeadline then
    .error (governanceError [.text "voting period has not ended yet"])
  else
    match tallyVotes p now with
    | none => .error .overflow
    | some tally =>
      let outcome := tallyOutcome tally totalGovernanceStaked
      let g := { g with proposals := g.proposals.insert proposalId (p.settled outcome now) }
      return (outcome, g.recordStatusTransition .active outcome)

end ElaraMesh.Governance
