import ElaraMesh.Ledger.Records
import ElaraMesh.Lib.Draw
import ElaraMesh.Lib.Runs
import ElaraMesh.Lib.Table

/-!
# Challenges

A staked identity accuses another one, and a jury drawn by hash votes.  When the votes of the
whole jury are in, the challenge is dismissed or has a verdict, which may be appealed once.  A
loop makes verdicts final after the appeal window.  Nothing closes a challenge whose jury does
not vote, and the voting window of an appeal is counted from the filing.

## Main results

* `wellVoted_runFrom` — votes are missing exactly while a challenge is voted on.
* `challenge_closes_iff` — a challenge is closed after its windows if and only if its jury
  voted, and a new jury can vote if and only if the first voting window is not over.
-/

namespace ElaraMesh.Fisherman

open Record (Str)
open Smt (Sha3 Bytes32 sha3_256)
open Iteration (walk)
open Tx (bind_eq_ok)

/-! ### Challenges -/

def defaultJurySize : ℕ := 13

def appealJurySize : ℕ := 26

def juryVotingWindowSecs : F64 := F64.ofNat (3 * 86400)

def appealWindowSecs : F64 := F64.ofNat (2 * 86400)

inductive ChallengeType where
  | spam : ChallengeType
  | falseWitnessing : ChallengeType
  | doubleSigning : ChallengeType
  | cartelFormation : ChallengeType
  deriving DecidableEq

def ChallengeType.parseStr (s : Str) : Option ChallengeType :=
  if s = .text "spam" then some spam
  else if s = .text "false_witnessing" then some falseWitnessing
  else if s = .text "double_signing" then some doubleSigning
  else if s = .text "cartel_formation" then some cartelFormation
  else none

/-- The share of a stake that is slashed: a tenth, a quarter or a half. -/
def slashPercent : ChallengeType → F64
  | .spam => ⟨0x3fb999999999999a⟩
  | .falseWitnessing => ⟨0x3fd0000000000000⟩
  | .doubleSigning => F64.half
  | .cartelFormation => ⟨0x3fd0000000000000⟩

inductive ChallengeStatus where
  | filed : ChallengeStatus
  | juryVoting : ChallengeStatus
  | verdict : ChallengeStatus
  | appeal : ChallengeStatus
  | final : ChallengeStatus
  | dismissed : ChallengeStatus
  deriving DecidableEq

namespace ChallengeStatus

def closed : ChallengeStatus → Bool
  | final => true
  | dismissed => true
  | _ => false

def voting : ChallengeStatus → Bool
  | juryVoting => true
  | appeal => true
  | _ => false

end ChallengeStatus

structure JuryVote where
  juror : Str
  guilty : Bool
  timestamp : F64
  deriving DecidableEq

structure Challenge where
  id : Str
  challenger : Str
  accused : Str
  challengeType : ChallengeType
  evidence : List Str
  filedAt : F64
  status : ChallengeStatus
  jury : List Str
  votes : List JuryVote
  isAppeal : Bool
  verdict : Option Bool
  verdictAt : Option F64
  slashAmount : Option ℕ
  deriving DecidableEq

namespace Challenge

/-- Guilty with three quarters of the jury, when all votes are in. -/
def hasSupermajority (c : Challenge) : Option Bool :=
  if c.votes.length < c.jury.length then none
  else
    let guilty := c.votes.countP JuryVote.guilty
    some (decide (guilty * 4 ≥ c.jury.length * 3))

/-- May the verdict still be appealed? -/
def inAppealWindow (c : Challenge) (now : F64) : Bool :=
  if c.isAppeal then false
  else
    match c.verdictAt with
    | some t => (now.sub t).lt appealWindowSecs
    | none => false

def decided (c : Challenge) (isGuilty : Bool) (timestamp : F64) : Challenge :=
  { c with
    verdict := some isGuilty
    verdictAt := some timestamp
    slashAmount :=
      if isGuilty then
        some (((slashPercent c.challengeType).mul (F64.ofNat 1000000000)).toNat (2 ^ 64 - 1))
      else c.slashAmount
    status :=
      if isGuilty then if c.isAppeal then .final else .verdict
      else .dismissed }

def filedBy (challengeId challenger accused : Str) (challengeType : ChallengeType)
    (evidence : List Str) (timestamp : F64) (jury : List Str) : Challenge where
  id := challengeId
  challenger := challenger
  accused := accused
  challengeType := challengeType
  evidence := evidence
  filedAt := timestamp
  status := .juryVoting
  jury := jury
  votes := []
  isAppeal := false
  verdict := none
  verdictAt := none
  slashAmount := none

def appealed (c : Challenge) (reason : Str) (jury : List Str) : Challenge :=
  { c with
    status := .appeal
    jury := jury
    votes := []
    verdict := none
    verdictAt := none
    isAppeal := true
    evidence := c.evidence ++ [Str.append (.text "appeal:") reason] }

/-- One more vote; the last one brings the verdict. -/
def withVote (c : Challenge) (v : JuryVote) : Challenge × Option Bool :=
  let c := { c with votes := c.votes ++ [v] }
  if c.votes.length = c.jury.length then
    match c.hasSupermajority with
    | some isGuilty => (c.decided isGuilty v.timestamp, some isGuilty)
    | none => (c, none)
  else (c, none)

end Challenge

inductive ChallengeError where
  | alreadyExists (challengeId : Str) : ChallengeError
  | openAgainst (accused : Str) : ChallengeError
  | noEligibleJurors : ChallengeError
  | notFound (challengeId : Str) : ChallengeError
  | notVoting : ChallengeError
  | notJuror (juror : Str) : ChallengeError
  | alreadyVoted : ChallengeError
  | votingExpired : ChallengeError
  | noVerdict : ChallengeError
  | appealExpired : ChallengeError
  | notParty : ChallengeError
  deriving DecidableEq

abbrev ChallengeState : Type := Table Str Challenge

/-! ### Juries -/

section Jury

variable [Sha3]

def jurySeed (challengeId challenger accused : Str) (epochSeed : List UInt8) : Bytes32 :=
  sha3_256 (challengeId.bytes ++ 0x3a :: challenger.bytes ++ 0x3a :: accused.bytes ++
    0x3a :: (Str.hex epochSeed).bytes)

def jurorScore (seed : Bytes32) (juror : Str) : Bytes32 := sha3_256 (seed.data ++ juror.bytes)

/-- The first of the pool in the order of the hashes of a seed and the juror, without the two
parties. -/
def selectJuryWithEpoch (challengeId challenger accused : Str) (eligible : List Str) (count : ℕ)
    (epochSeed : List UInt8) : List Str :=
  let seed := jurySeed challengeId challenger accused epochSeed
  let scored := (eligible.filter fun j => j ≠ challenger ∧ j ≠ accused).map fun juror =>
    (jurorScore seed juror, juror)
  let sorted := Draw.sortBy (fun e => e.1.data.map UInt8.toNat) scored
  (sorted.take count).map Prod.snd

/-- Pools with the same members but for the parties give the same jury, if no two scores are
equal. -/
theorem selectJuryWithEpoch_congr {challengeId challenger accused : Str} {pool pool' : List Str}
    {epochSeed : List UInt8} (hpool : pool.Nodup) (hpool' : pool'.Nodup)
    (hsame : ∀ j, j ≠ challenger → j ≠ accused → (j ∈ pool ↔ j ∈ pool'))
    (hapart : Set.InjOn (jurorScore (jurySeed challengeId challenger accused epochSeed))
      {j | j ∈ pool}) (count : ℕ) :
    selectJuryWithEpoch challengeId challenger accused pool count epochSeed =
      selectJuryWithEpoch challengeId challenger accused pool' count epochSeed := by
  have hperm : (pool.filter fun j => j ≠ challenger ∧ j ≠ accused).Perm
      (pool'.filter fun j => j ≠ challenger ∧ j ≠ accused) := by
    refine (List.perm_ext_iff_of_nodup (hpool.filter _) (hpool'.filter _)).mpr fun j => ?_
    simp only [List.mem_filter, decide_eq_true_eq]
    exact and_congr_left fun hj => hsame j hj.1 hj.2
  unfold selectJuryWithEpoch
  dsimp only
  rw [Draw.sortBy_congr ?_ (hperm.map _)]
  rw [Draw.Keyed, List.map_map]
  refine List.Nodup.map_on (fun j hj j' hj' heq => ?_) (hpool.filter _)
  refine hapart (List.mem_filter.mp hj).1 (List.mem_filter.mp hj').1 (Bytes32.ext ?_)
  exact List.map_injective_iff.mpr (fun _ _ => UInt8.toNat_inj.mp) heq

/-- The bytes of a VRF output, none if there is no output. -/
def epochSeed (vrf : Option Bytes32) : List UInt8 := (vrf.map Bytes32.data).getD []

/-! ### Operations -/

/-- Whom a jury is drawn from, and with which randomness. -/
structure Draw where
  eligible : List Str
  vrf : Option Bytes32

def newChallenge [Iteration] (s : ChallengeState) (challengeId challenger accused : Str)
    (challengeType : ChallengeType) (evidence : List Str) (timestamp : F64) (draw : Draw) :
    Except ChallengeError Challenge :=
  if (s.lookup challengeId).isSome then .error (.alreadyExists challengeId)
  else if (walk s).any fun e => decide (e.2.accused = accused) && !e.2.status.closed then
    .error (.openAgainst accused)
  else
    let jury := selectJuryWithEpoch challengeId challenger accused draw.eligible defaultJurySize
      (epochSeed draw.vrf)
    if jury = [] then .error .noEligibleJurors
    else
      .ok (.filedBy challengeId challenger accused challengeType evidence timestamp jury)

end Jury

def votedChallenge (s : ChallengeState) (challengeId juror : Str) (guilty : Bool)
    (timestamp : F64) : Except ChallengeError (Challenge × Option Bool) :=
  match s.lookup challengeId with
  | none => .error (.notFound challengeId)
  | some c =>
    if c.status.voting = false then .error .notVoting
    else if juror ∉ c.jury then .error (.notJuror juror)
    else if c.votes.any fun v => v.juror = juror then .error .alreadyVoted
    else if juryVotingWindowSecs.lt (timestamp.sub c.filedAt) then .error .votingExpired
    else .ok (c.withVote ⟨juror, guilty, timestamp⟩)

def appealedChallenge [Sha3] (s : ChallengeState) (challengeId appellant reason : Str)
    (timestamp : F64) (draw : Draw) : Except ChallengeError Challenge :=
  match s.lookup challengeId with
  | none => .error (.notFound challengeId)
  | some c =>
    if c.status ≠ .verdict then .error .noVerdict
    else if c.inAppealWindow timestamp = false then .error .appealExpired
    else if appellant ≠ c.accused ∧ appellant ≠ c.challenger then .error .notParty
    else
      let newEligible := draw.eligible.filter fun j =>
        j ∉ c.jury ∧ j ≠ c.challenger ∧ j ≠ c.accused
      let newJury := selectJuryWithEpoch (challengeId.append (.text ":appeal")) c.challenger
        c.accused newEligible appealJurySize (epochSeed draw.vrf)
      if newJury = [] then .error .noEligibleJurors
      else
        .ok (c.appealed reason newJury)

/-- The entry with the verdict that may no longer be appealed made final. -/
def finalizeIfExpired (s : ChallengeState) (challengeId : Str) (now : F64) : ChallengeState :=
  match s.lookup challengeId with
  | none => s
  | some c =>
    if c.status = .verdict ∧ c.inAppealWindow now = false then
      s.insert challengeId { c with status := .final }
    else s

/-- One run of the loop, over the challenges that have a verdict. -/
def finalizeLoop [Iteration] (s : ChallengeState) (now : F64) : ChallengeState :=
  let verdictIds := ((walk s).filter fun e => e.2.status = .verdict).map fun e => e.2.id
  verdictIds.foldl (fun s id => finalizeIfExpired s id now) s

inductive Operation where
  | file (challengeId challenger accused : Str) (challengeType : ChallengeType)
      (evidence : List Str) (timestamp : F64) (draw : Draw) : Operation
  | vote (challengeId juror : Str) (guilty : Bool) (timestamp : F64) : Operation
  | appeal (challengeId appellant reason : Str) (timestamp : F64) (draw : Draw) : Operation

section Run

variable [Sha3] [Iteration]

/-- The entry that an operation writes, with its key. -/
def written (s : ChallengeState) : Operation → Except ChallengeError (Str × Challenge)
  | .file challengeId challenger accused challengeType evidence timestamp draw => do
    let c ← newChallenge s challengeId challenger accused challengeType evidence timestamp draw
    return (challengeId, c)
  | .vote challengeId juror guilty timestamp => do
    let (c, _) ← votedChallenge s challengeId juror guilty timestamp
    return (challengeId, c)
  | .appeal challengeId appellant reason timestamp draw => do
    let c ← appealedChallenge s challengeId appellant reason timestamp draw
    return (challengeId, c)

/-- An operation that is refused changes nothing. -/
def applyOperation (s : ChallengeState) (op : Operation) : ChallengeState :=
  match written s op with
  | .ok (id, c) => s.insert id c
  | .error _ => s

inductive Event where
  | op (o : Operation) : Event
  | tick (now : F64) : Event

def step (s : ChallengeState) : Event → ChallengeState
  | .op o => applyOperation s o
  | .tick now => finalizeLoop s now

def runFrom (events : List Event) : ChallengeState := events.foldl step ∅

end Run

/-! ### Votes and phases -/

/-- The entry of an identifier: votes are missing exactly while a jury is voting. -/
structure Sound (id : Str) (c : Challenge) : Prop where
  id_eq : c.id = id
  votes_le : c.votes.length ≤ c.jury.length
  voting_iff : c.status.voting = true ↔ c.votes.length < c.jury.length
  /-- The jury is selected at once. -/
  not_filed : c.status ≠ .filed

def WellVoted (s : ChallengeState) : Prop := ∀ id c, s.lookup id = some c → Sound id c

variable {s : ChallengeState} {id : Str} {c : Challenge} {t : F64} {draw : Draw}

theorem wellVoted_insert (hs : WellVoted s) (hc : Sound id c) : WellVoted (s.insert id c) := by
  intro k d hd
  rw [Table.lookup_insert_eq] at hd
  split at hd
  · rename_i hk
    rw [hk, ← Option.some.inj hd]
    exact hc
  · exact hs k d hd

/-- The last vote ends the voting. -/
theorem sound_withVote (hc : Sound id c) (hvoting : c.status.voting = true)
    (v : JuryVote) : Sound id (c.withVote v).1 := by
  have hlt := hc.voting_iff.mp hvoting
  unfold Challenge.withVote
  dsimp only
  split
  · rename_i hall
    rw [List.length_append, List.length_singleton] at hall
    simp only [Challenge.hasSupermajority, List.length_append, List.length_singleton, hall,
      lt_irrefl, if_false]
    -- three ways out, and none of them is a vote
    refine ⟨hc.id_eq, by simp [Challenge.decided, hall], ?_, ?_⟩
    · simp only [Challenge.decided, List.length_append, List.length_singleton, hall, lt_irrefl,
        iff_false]
      split
      · split <;> exact Bool.false_ne_true
      · exact Bool.false_ne_true
    · simp only [Challenge.decided]
      split
      · split <;> exact ChallengeStatus.noConfusion
      · exact ChallengeStatus.noConfusion
  · rename_i hmissing
    rw [List.length_append, List.length_singleton] at hmissing
    refine ⟨hc.id_eq, ?_, ?_, hc.not_filed⟩
    · simp only [List.length_append, List.length_singleton]
      omega
    · simp only [hvoting, List.length_append, List.length_singleton, true_iff]
      omega

theorem newChallenge_eq_ok [Sha3] [Iteration] {challenger accused : Str}
    {type : ChallengeType} {evidence : List Str}
    (h : newChallenge s id challenger accused type evidence t draw = .ok c) :
    s.lookup id = none ∧ ∃ jury, jury ≠ [] ∧
      c = .filedBy id challenger accused type evidence t jury := by
  unfold newChallenge at h
  split at h
  · cases h
  rename_i hnew
  split at h
  · cases h
  dsimp only at h
  split at h
  · cases h
  rename_i hjury
  exact ⟨by simpa using hnew, _, hjury, (Except.ok.inj h).symm⟩

theorem appealedChallenge_eq_ok [Sha3] {appellant reason : Str}
    (h : appealedChallenge s id appellant reason t draw = .ok c) :
    ∃ c₀, s.lookup id = some c₀ ∧ c₀.status = .verdict ∧ ∃ jury, jury ≠ [] ∧
      c = c₀.appealed reason jury := by
  unfold appealedChallenge at h
  split at h
  · cases h
  rename_i c₀ hc₀
  split at h
  · cases h
  rename_i hstatus
  split at h
  · cases h
  split at h
  · cases h
  dsimp only at h
  split at h
  · cases h
  rename_i hjury
  exact ⟨c₀, hc₀, not_not.mp hstatus, _, hjury, (Except.ok.inj h).symm⟩

theorem votedChallenge_eq_ok {juror : Str} {guilty : Bool} {r : Challenge × Option Bool} :
    votedChallenge s id juror guilty t = .ok r ↔
      ∃ c, s.lookup id = some c ∧ c.status.voting = true ∧ juror ∈ c.jury ∧
        (∀ v ∈ c.votes, v.juror ≠ juror) ∧ juryVotingWindowSecs.lt (t.sub c.filedAt) = false ∧
        c.withVote ⟨juror, guilty, t⟩ = r := by
  unfold votedChallenge
  cases s.lookup id with
  | none => simp
  | some c =>
    dsimp only
    constructor
    · intro h
      split at h
      · cases h
      rename_i hvoting
      split at h
      · cases h
      rename_i hjuror
      split at h
      · cases h
      rename_i hvoted
      split at h
      · cases h
      rename_i hlate
      exact ⟨c, rfl, by simpa using hvoting, not_not.mp hjuror, by simpa using hvoted,
        by simpa using hlate, Except.ok.inj h⟩
    · rintro ⟨c', hc', hvoting, hjuror, hvoted, hlate, rfl⟩
      obtain rfl := Option.some.inj hc'
      have hnone : ¬ c.votes.any (fun v => v.juror = juror) = true := by simpa using hvoted
      rw [if_neg (by simp [hvoting]), if_neg (not_not.mpr hjuror), if_neg hnone,
        if_neg (by simp [hlate])]

theorem wellVoted_applyOperation [Sha3] [Iteration] (hs : WellVoted s)
    (op : Operation) : WellVoted (applyOperation s op) := by
  unfold applyOperation
  split
  · rename_i k c h
    cases op with
    | file id challenger accused type evidence t draw =>
      obtain ⟨c', hc', h⟩ := bind_eq_ok.mp h
      obtain ⟨rfl, rfl⟩ := Prod.mk.inj (Except.ok.inj h)
      obtain ⟨-, jury, hjury, rfl⟩ := newChallenge_eq_ok hc'
      refine wellVoted_insert hs ⟨rfl, Nat.zero_le _, ?_, ChallengeStatus.noConfusion⟩
      simpa [Challenge.filedBy, ChallengeStatus.voting] using List.length_pos_of_ne_nil hjury
    | vote id juror guilty t =>
      obtain ⟨r, hr, h⟩ := bind_eq_ok.mp h
      obtain ⟨rfl, rfl⟩ := Prod.mk.inj (Except.ok.inj h)
      obtain ⟨c₀, hc₀, hvoting, -, -, -, rfl⟩ := votedChallenge_eq_ok.mp hr
      exact wellVoted_insert hs (sound_withVote (hs id c₀ hc₀) hvoting _)
    | appeal id appellant reason t draw =>
      obtain ⟨c', hc', h⟩ := bind_eq_ok.mp h
      obtain ⟨rfl, rfl⟩ := Prod.mk.inj (Except.ok.inj h)
      obtain ⟨c₀, hc₀, -, jury, hjury, rfl⟩ := appealedChallenge_eq_ok hc'
      refine wellVoted_insert hs ⟨(hs id c₀ hc₀).id_eq, Nat.zero_le _, ?_, ChallengeStatus.noConfusion⟩
      simpa [Challenge.appealed, ChallengeStatus.voting] using List.length_pos_of_ne_nil hjury
  · exact hs

/-! ### The loop -/

/-- What the loop makes of an entry. -/
def finalized (now : F64) (c : Challenge) : Challenge :=
  if c.status = .verdict ∧ c.inAppealWindow now = false then { c with status := .final } else c

theorem finalized_of_ne_verdict (h : c.status ≠ .verdict) (now : F64) :
    finalized now c = c := if_neg fun hc => h hc.1

theorem finalized_idem (now : F64) (c : Challenge) : finalized now (finalized now c) = finalized now c := by
  by_cases h : c.status = .verdict ∧ c.inAppealWindow now = false
  · rw [show finalized now c = { c with status := .final } from if_pos h]
    exact finalized_of_ne_verdict ChallengeStatus.noConfusion now
  · rw [show finalized now c = c from if_neg h, show finalized now c = c from if_neg h]

theorem lookup_finalizeIfExpired (s : ChallengeState) (id : Str) (now : F64) (k : Str) :
    (finalizeIfExpired s id now).lookup k =
      if k = id then (s.lookup k).map (finalized now) else s.lookup k := by
  unfold finalizeIfExpired
  cases hc : s.lookup id with
  | none =>
    dsimp only
    split
    · rename_i hk
      rw [hk, hc]
      rfl
    · rfl
  | some c =>
    dsimp only
    by_cases h : c.status = .verdict ∧ c.inAppealWindow now = false
    · rw [if_pos h, Table.lookup_insert_eq]
      split
      · rename_i hk
        rw [hk, hc, Option.map_some, finalized, if_pos h]
      · rfl
    · rw [if_neg h]
      split
      · rename_i hk
        rw [hk, hc, Option.map_some, finalized, if_neg h]
      · rfl

theorem lookup_foldl_finalizeIfExpired (ids : List Str) (s : ChallengeState) (now : F64) (k : Str) :
    (ids.foldl (fun s id => finalizeIfExpired s id now) s).lookup k =
      if k ∈ ids then (s.lookup k).map (finalized now) else s.lookup k := by
  induction ids generalizing s with
  | nil => simp
  | cons id ids ih =>
    rw [List.foldl_cons, ih, lookup_finalizeIfExpired]
    by_cases hk : k = id
    · have htwice : finalized now ∘ finalized now = finalized now := funext (finalized_idem now)
      simp [hk, Option.map_map, htwice]
    · simp [hk]

/-- A run of the loop looks at every entry once. -/
theorem lookup_finalizeLoop [Iteration] (hs : WellVoted s) (now : F64) (k : Str) :
    (finalizeLoop s now).lookup k = (s.lookup k).map (finalized now) := by
  unfold finalizeLoop
  dsimp only
  rw [lookup_foldl_finalizeIfExpired]
  split
  · rfl
  · rename_i hk
    cases hc : s.lookup k with
    | none => rfl
    | some c =>
      -- an entry that the loop passes by has no verdict
      have hstatus : c.status ≠ .verdict := by
        intro hverdict
        refine hk (List.mem_map.mpr ⟨(k, c), List.mem_filter.mpr ⟨Iteration.mem_walk.mpr hc, ?_⟩,
          (hs k c hc).id_eq⟩)
        simpa using hverdict
      rw [Option.map_some, finalized_of_ne_verdict hstatus]

theorem sound_finalized (hc : Sound id c) (now : F64) :
    Sound id (finalized now c) := by
  unfold finalized
  split
  · rename_i h
    refine ⟨hc.id_eq, hc.votes_le, ?_, ChallengeStatus.noConfusion⟩
    rw [← hc.voting_iff, h.1]
    rfl
  · exact hc

theorem wellVoted_finalizeLoop [Iteration] (hs : WellVoted s) (now : F64) :
    WellVoted (finalizeLoop s now) := by
  intro k c hc
  rw [lookup_finalizeLoop hs] at hc
  obtain ⟨c₀, hc₀, rfl⟩ := Option.map_eq_some_iff.mp hc
  exact sound_finalized (hs k c₀ hc₀) now

theorem lookup_foldl_finalizeLoop [Iteration] (hs : WellVoted s) (ticks : List F64) (k : Str) :
    (ticks.foldl finalizeLoop s).lookup k =
      (s.lookup k).map fun c => ticks.foldl (fun c now => finalized now c) c := by
  induction ticks generalizing s with
  | nil => simp
  | cons now ticks ih =>
    rw [List.foldl_cons, ih (wellVoted_finalizeLoop hs now), lookup_finalizeLoop hs, Option.map_map]
    rfl

theorem foldl_finalized_of_ne_verdict (h : c.status ≠ .verdict) (ticks : List F64) :
    ticks.foldl (fun c now => finalized now c) c = c := by
  induction ticks with
  | nil => rfl
  | cons now ticks ih => rw [List.foldl_cons, finalized_of_ne_verdict h, ih]

/-! ### Which challenges are closed -/

/-- In every state of a run, votes are missing exactly while a challenge is voted on. -/
theorem wellVoted_runFrom [Sha3] [Iteration] (events : List Event) : WellVoted (runFrom events) := by
  refine Runs.forall_state (fun s e hs => ?_) (fun _ _ h => nomatch h) events
  cases e with
  | op o => exact wellVoted_applyOperation hs o
  | tick now => exact wellVoted_finalizeLoop hs now

/-- The voting window and the appeal window of a challenge are over. -/
def Past (c : Challenge) (now : F64) : Prop :=
  juryVotingWindowSecs.lt (now.sub c.filedAt) = true ∧ c.inAppealWindow now = false

def ClosedAt (s : ChallengeState) (id : Str) : Prop :=
  ∃ c, s.lookup id = some c ∧ c.status.closed = true

def JurorsCanVote (s : ChallengeState) (id : Str) (jury : List Str) (timestamp : F64) : Prop :=
  ∃ until', timestamp.lt until' = true ∧ ∀ t, timestamp.lt t = true → t.le until' = true →
    ∀ juror ∈ jury, ∀ guilty, (votedChallenge s id juror guilty t).isOk = true

/-- The voting window of a filing is open for a while after a time. -/
def VotingOpenAfter (filedAt timestamp : F64) : Prop :=
  ∃ until', timestamp.lt until' = true ∧ ∀ t, timestamp.lt t = true → t.le until' = true →
    juryVotingWindowSecs.lt (t.sub filedAt) = false

theorem closedAt_iff [Iteration] (hs : WellVoted s)
    (hc : s.lookup id = some c) {ticks : List F64} (hticks : ticks ≠ [])
    (hpast : ∀ now ∈ ticks, Past c now) :
    ClosedAt (ticks.foldl finalizeLoop s) id ↔ c.votes.length = c.jury.length := by
  have hsound := hs id c hc
  unfold ClosedAt
  rw [lookup_foldl_finalizeLoop hs, hc, Option.map_some]
  simp only [Option.some.injEq, exists_eq_left']
  by_cases hverdict : c.status = .verdict
  · obtain ⟨now, rest, rfl⟩ := List.exists_cons_of_ne_nil hticks
    have hfinal : finalized now c = { c with status := .final } :=
      if_pos ⟨hverdict, (hpast now List.mem_cons_self).2⟩
    rw [List.foldl_cons, hfinal, foldl_finalized_of_ne_verdict ChallengeStatus.noConfusion]
    have hall : ¬ c.votes.length < c.jury.length := by
      rw [← hsound.voting_iff, hverdict]
      exact Bool.false_ne_true
    simpa only [ChallengeStatus.closed, true_iff] using
      Nat.le_antisymm hsound.votes_le (Nat.le_of_not_lt hall)
  · rw [foldl_finalized_of_ne_verdict hverdict]
    have hvoting := hsound.voting_iff
    have hle := hsound.votes_le
    have hfiled := hsound.not_filed
    cases hstatus : c.status <;> simp_all [ChallengeStatus.closed, ChallengeStatus.voting] <;> omega

theorem jurorsCanVote_iff [Sha3] {appellant reason : Str}
    (h : appealedChallenge s id appellant reason t draw = .ok c) :
    JurorsCanVote (s.insert id c) id c.jury t ↔ VotingOpenAfter c.filedAt t := by
  obtain ⟨c₀, -, -, jury, hjury, rfl⟩ := appealedChallenge_eq_ok h
  have hvote : ∀ juror ∈ jury, ∀ guilty t,
      (votedChallenge (s.insert id (c₀.appealed reason jury)) id juror guilty t).isOk = true ↔
        juryVotingWindowSecs.lt (t.sub c₀.filedAt) = false := by
    intro juror hjuror guilty t
    unfold votedChallenge
    rw [AList.lookup_insert]
    cases hlate : juryVotingWindowSecs.lt (t.sub c₀.filedAt) <;>
      simp [Challenge.appealed, ChallengeStatus.voting, hjuror, hlate, Except.isOk, Except.toBool]
  obtain ⟨first, hmem⟩ := List.exists_mem_of_ne_nil _ hjury
  unfold JurorsCanVote VotingOpenAfter
  refine exists_congr fun last => and_congr_right fun _ => forall_congr' fun t' =>
    imp_congr_right fun _ => imp_congr_right fun _ => ?_
  constructor
  · intro hall
    exact (hvote first hmem true t').mp (hall first hmem true)
  · intro hopen juror hjuror guilty
    exact (hvote juror hjuror guilty t').mpr hopen

/-- After every run: once its windows are over, the loop closes a challenge if and only if all
its jurors voted; and the jury of an appeal can vote for a while if and only if the window of
the filing is still open for a while. -/
theorem challenge_closes_iff [Sha3] [Iteration] (events : List Event) :
    (∀ id c, (runFrom events).lookup id = some c → ∀ ticks, ticks ≠ [] →
      (∀ now ∈ ticks, Past c now) →
        (ClosedAt (ticks.foldl finalizeLoop (runFrom events)) id ↔
          c.votes.length = c.jury.length)) ∧
    ∀ id appellant reason t draw c,
      appealedChallenge (runFrom events) id appellant reason t draw = .ok c →
        (JurorsCanVote ((runFrom events).insert id c) id c.jury t ↔ VotingOpenAfter c.filedAt t) := by
  refine ⟨fun id c hc ticks hticks hpast => ?_, fun id appellant reason t draw c h => ?_⟩
  · exact closedAt_iff (wellVoted_runFrom events) hc hticks hpast
  · exact jurorsCanVote_iff h

/-! ### A jury that does not vote, and one that cannot -/

section Fixed

attribute [local instance] Smt.guardedSha3 Iteration.stored

def loneJuror (name : String) : Draw := ⟨[.text name], none⟩

/-- A challenge whose only juror never votes. -/
def silentRun : List Event :=
  [.op (.file (.text "c") (.text "fisher") (.text "accused") .spam [.text "e"] (F64.ofNat 0)
    (loneJuror "juror"))]

/-- A challenge that is decided after two days and a half. -/
def lateRun : List Event :=
  silentRun ++ [.op (.vote (.text "c") (.text "juror") true (F64.ofNat 216000))]

/-- After a year of the loop, the challenge whose juror did not vote is open, and the accused
cannot be challenged; and an appeal on the fourth day is taken in, though its juror cannot vote
a second later. -/
theorem silent_jury_and_late_appeal :
    ((finalizeLoop (runFrom silentRun) (F64.ofNat 31536000)).lookup (.text "c")).map
      Challenge.status = some .juryVoting ∧
    (newChallenge (finalizeLoop (runFrom silentRun) (F64.ofNat 31536000)) (.text "d")
      (.text "other") (.text "accused") .doubleSigning [.text "e"] (F64.ofNat 31536000)
      (loneJuror "juror")).toOption = none ∧
    (appealedChallenge (runFrom lateRun) (.text "c") (.text "accused") (.text "no")
      (F64.ofNat 345600) (loneJuror "second")).toOption.map Challenge.jury =
        some [.text "second"] ∧
    (votedChallenge (applyOperation (runFrom lateRun) (.appeal (.text "c") (.text "accused")
      (.text "no") (F64.ofNat 345600) (loneJuror "second"))) (.text "c") (.text "second") false
      (F64.ofNat 345601)).isOk = false := by
  refine ⟨?_, ?_, ?_, ?_⟩ <;> decide +kernel

end Fixed

end ElaraMesh.Fisherman
