import ElaraMesh.Ledger.Outcome
import ElaraMesh.Network.Fisherman

/-!
# Slashes after verdicts

The node of the genesis authority slashes the accused as soon as a jury finds it guilty.  The verdict
may still be appealed at that time: the jury of the appeal then brings about a second slash, or
dismisses a challenge for which the accused was slashed.

## Main results

* `Tracked.count_le`, `Tracked.voting` — how often a challenge has led to a slash.
* `nodeStep_spec` — a step keeps the slashes right exactly if it spares appeals.
* `slashesRight_throughout_iff` — when slashes are right throughout a run.
-/

namespace ElaraMesh.Fisherman

open Record (Str)
open Smt (Sha3)

/-! ### What a verdict leads to -/

structure PendingSlash where
  accused : Str
  challenger : Str
  /-- The jurors who voted guilty. -/
  jury : List Str
  challengeType : ChallengeType
  deriving DecidableEq

structure SlashRecord where
  amount : ℕ
  offender : Str
  challenger : Str
  jury : List Str
  stakeRecordId : Str
  reason : Ledger.Message
  deriving DecidableEq

/-- The name of the type in the source. -/
def ChallengeType.debug : ChallengeType → String
  | spam => "Spam"
  | falseWitnessing => "FalseWitnessing"
  | doubleSigning => "DoubleSigning"
  | cartelFormation => "CartelFormation"

def pendingSlash (c : Challenge) : PendingSlash where
  accused := c.accused
  challenger := c.challenger
  jury := c.jury.filter fun j => c.votes.any fun v => v.juror = j ∧ v.guilty
  challengeType := c.challengeType

/-- What the ledger has to say when a slash is due: the largest stake of an identity, and whether a
slash is taken in. -/
structure LedgerView where
  largestStake : Str → Option (Str × ℕ)
  inserts : SlashRecord → Bool

def fishermanSlash (ledger : LedgerView) (slash : PendingSlash) : Option SlashRecord :=
  match ledger.largestStake slash.accused with
  | none => none
  | some (stakeRecordId, stakeAmount) =>
    let slashAmount :=
      ((F64.ofNat stakeAmount).mul (slashPercent slash.challengeType)).toNat (2 ^ 64 - 1)
    if slashAmount = 0 then none
    else
      let record : SlashRecord :=
        { amount := slashAmount
          offender := slash.accused
          challenger := slash.challenger
          jury := if slash.jury = [] then [slash.challenger] else slash.jury
          stakeRecordId
          reason := [.text "fisherman:", .text slash.challengeType.debug, .text ":challenger=",
            .clip slash.challenger] }
      if ledger.inserts record then some record else none

/-! ### The node of the genesis authority -/

structure Node where
  challenges : ChallengeState
  /-- The challenges that led to a slash, one entry for each time. -/
  triggered : List Str
  /-- The slashes that were made, with their challenges. -/
  executed : List (Str × SlashRecord)

def Node.new : Node := ⟨∅, [], []⟩

structure NodeEvent where
  event : Event
  ledger : LedgerView

section

variable [Sha3] [Iteration]

/-- The challenge that an event finds guilty. -/
def convicted (s : ChallengeState) : Event → Option (Str × Challenge)
  | .op (.vote challengeId juror guilty timestamp) =>
    match votedChallenge s challengeId juror guilty timestamp with
    | .ok (c, some true) => some (challengeId, c)
    | _ => none
  | _ => none

def nodeStep (n : Node) (e : NodeEvent) : Node :=
  let challenges := step n.challenges e.event
  match convicted n.challenges e.event with
  | none => { n with challenges }
  | some (id, c) =>
    { challenges
      triggered := n.triggered ++ [id]
      executed := n.executed ++ ((fishermanSlash e.ledger (pendingSlash c)).map (id, ·)).toList }

/-- No challenge leads to two slashes, and the accused is not slashed for one that is dismissed by
an appeal. -/
def SlashesRight (n : Node) : Prop :=
  (∀ id, n.triggered.count id ≤ 1) ∧
    ∀ id c, n.challenges.lookup id = some c → c.isAppeal = true → c.status = .dismissed →
      id ∉ n.executed.map Prod.fst

/-- The event is no vote by which an appeal is decided, unless for the accused and before it was
slashed. -/
def AppealSpares (n : Node) (e : NodeEvent) : Prop :=
  ∀ id juror guilty t c verdict, e.event = .op (.vote id juror guilty t) →
    votedChallenge n.challenges id juror guilty t = .ok (c, some verdict) → c.isAppeal = true →
      verdict = false ∧ id ∉ n.executed.map Prod.fst

end

/-! ### How often a challenge has led to a slash -/

/-- The number of slashes, by the status of the challenge. -/
def Tracks (k : ℕ) (c : Challenge) : Prop :=
  match c.status with
  | .filed => False
  | .juryVoting => k = 0 ∧ c.isAppeal = false
  | .verdict => k = 1 ∧ c.isAppeal = false
  | .appeal => k = 1 ∧ c.isAppeal = true
  | .final => k = 1
  | .dismissed => k ≤ 1

/-- Every challenge is tracked, and what is not there led to nothing. -/
structure Tracked (n : Node) : Prop where
  wellVoted : WellVoted n.challenges
  absent : ∀ id, n.challenges.lookup id = none → n.triggered.count id = 0
  present : ∀ id c, n.challenges.lookup id = some c → Tracks (n.triggered.count id) c

theorem tracks_finalized {k : ℕ} {c : Challenge} (h : Tracks k c) (now : F64) :
    Tracks k (finalized now c) := by
  unfold finalized
  split
  · next hc =>
    unfold Tracks at h
    rw [hc.1] at h
    exact h.1
  · exact h

/-- A vote that decides nothing leaves the status as it is. -/
theorem withVote_cases (c : Challenge) (v : JuryVote) :
    (c.withVote v = ({ c with votes := c.votes ++ [v] }, none)) ∨
      ∃ isGuilty, c.withVote v =
        (({ c with votes := c.votes ++ [v] } : Challenge).decided isGuilty v.timestamp,
          some isGuilty) := by
  unfold Challenge.withVote
  dsimp only
  split
  · split
    · exact .inr ⟨_, rfl⟩
    · exact .inl rfl
  · exact .inl rfl

variable {n : Node} {id : Str} {c : Challenge} {triggered : List Str}
  {executed : List (Str × SlashRecord)}

theorem Tracked.count_le (hn : Tracked n) (id : Str) : n.triggered.count id ≤ 1 := by
  cases hc : n.challenges.lookup id with
  | none => exact (hn.absent id hc).trans_le zero_le_one
  | some c =>
    have htracks := hn.present id c hc
    unfold Tracks at htracks
    cases hstatus : c.status <;> rw [hstatus] at htracks
    · exact htracks.elim
    · exact htracks.1.trans_le zero_le_one
    · exact htracks.1.le
    · exact htracks.1.le
    · exact htracks.le
    · exact htracks

/-- One entry is written, and only its own slashes change. -/
theorem Tracked.insert (hn : Tracked n) (hsound : Sound id c)
    (hother : ∀ k, k ≠ id → triggered.count k = n.triggered.count k)
    (hc : Tracks (triggered.count id) c) :
    Tracked ⟨n.challenges.insert id c, triggered, executed⟩ := by
  refine ⟨wellVoted_insert hn.wellVoted hsound, fun k hk => ?_, fun k d hd => ?_⟩
  · rw [Table.lookup_insert_eq] at hk
    split at hk
    · cases hk
    · next hne =>
      rw [hother k hne]
      exact hn.absent k hk
  · rw [Table.lookup_insert_eq] at hd
    split at hd
    · next heq =>
      cases hd
      rw [heq]
      exact hc
    · next hne =>
      rw [hother k hne]
      exact hn.present k d hd

/-- The second half of what is right, for the entry that is written. -/
theorem SlashesRight.insert (hright : SlashesRight n)
    (htracked : Tracked ⟨n.challenges.insert id c, triggered, executed⟩)
    (hother : ∀ k, k ≠ id → k ∈ executed.map Prod.fst → k ∈ n.executed.map Prod.fst)
    (hc : c.isAppeal = true → c.status = .dismissed → id ∉ executed.map Prod.fst) :
    SlashesRight ⟨n.challenges.insert id c, triggered, executed⟩ := by
  refine ⟨htracked.count_le, fun k d hd happeal hdismissed => ?_⟩
  rw [Table.lookup_insert_eq] at hd
  split at hd
  · next heq =>
    cases hd
    rw [heq]
    exact hc happeal hdismissed
  · next hne => exact fun hmem => hright.2 k d hd happeal hdismissed (hother k hne hmem)

theorem tracked_tick [Iteration] (hn : Tracked n) (hright : SlashesRight n) (now : F64) :
    Tracked { n with challenges := finalizeLoop n.challenges now } ∧
      SlashesRight { n with challenges := finalizeLoop n.challenges now } := by
  have hlookup := lookup_finalizeLoop hn.wellVoted now
  refine ⟨⟨wellVoted_finalizeLoop hn.wellVoted now, fun k hk => ?_, fun k d hd => ?_⟩,
    hright.1, fun k d hd happeal hdismissed => ?_⟩
  · rw [hlookup, Option.map_eq_none_iff] at hk
    exact hn.absent k hk
  · rw [hlookup] at hd
    obtain ⟨d₀, hd₀, rfl⟩ := Option.map_eq_some_iff.mp hd
    exact tracks_finalized (hn.present k d₀ hd₀) now
  · rw [hlookup] at hd
    obtain ⟨d₀, hd₀, rfl⟩ := Option.map_eq_some_iff.mp hd
    -- what is dismissed was dismissed before
    unfold finalized at happeal hdismissed
    split at hdismissed
    · cases hdismissed
    · next hc =>
      rw [if_neg hc] at happeal
      exact hright.2 k d₀ hd₀ happeal hdismissed

/-- A challenge that is filed was not there, and one that is appealed had a verdict. -/
theorem tracked_filed_or_appealed (hn : Tracked n) (hright : SlashesRight n)
    (hsound : Sound id c) (hc : Tracks (n.triggered.count id) c) (hopen : c.status ≠ .dismissed) :
    Tracked { n with challenges := n.challenges.insert id c } ∧
      SlashesRight { n with challenges := n.challenges.insert id c } := by
  have htracked : Tracked ⟨n.challenges.insert id c, n.triggered, n.executed⟩ :=
    hn.insert hsound (fun _ _ => rfl) hc
  refine ⟨htracked, hright.insert htracked (fun _ _ hmem => hmem) fun _ hdismissed => ?_⟩
  exact absurd hdismissed hopen

/-! ### One vote -/

section Vote

variable {c₀ : Challenge} {v : JuryVote}

/-- While a jury votes, a challenge led to a slash exactly if this is an appeal. -/
theorem Tracked.voting (hn : Tracked n) (hc₀ : n.challenges.lookup id = some c₀)
    (hvoting : c₀.status.voting = true) :
    n.triggered.count id = if c₀.isAppeal then 1 else 0 := by
  have htracks := hn.present id c₀ hc₀
  unfold Tracks at htracks
  cases hstatus : c₀.status <;> rw [hstatus] at htracks hvoting
  · cases hvoting
  · rw [htracks.1, htracks.2]
    rfl
  · cases hvoting
  · rw [htracks.1, htracks.2]
    rfl
  · cases hvoting
  · cases hvoting

/-- The challenge after a vote that does not find the accused guilty. -/
theorem tracks_withVote_spared (hn : Tracked n) (hc₀ : n.challenges.lookup id = some c₀)
    (hspared : (c₀.withVote v).2 ≠ some true) :
    Tracks (n.triggered.count id) (c₀.withVote v).1 := by
  rcases withVote_cases c₀ v with heq | ⟨isGuilty, heq⟩
  · rw [heq]
    exact hn.present id c₀ hc₀
  · rw [heq] at hspared ⊢
    cases isGuilty with
    | true => exact absurd rfl hspared
    | false => exact hn.count_le id

/-- The challenge after a vote that finds the accused guilty, if this is no appeal. -/
theorem tracks_withVote_convicted (hn : Tracked n) (hc₀ : n.challenges.lookup id = some c₀)
    (hvoting : c₀.status.voting = true) (happeal : c₀.isAppeal = false)
    (hconvicted : (c₀.withVote v).2 = some true) :
    Tracks ((n.triggered ++ [id]).count id) (c₀.withVote v).1 ∧
      (c₀.withVote v).1.status = .verdict := by
  have hcount := hn.voting hc₀ hvoting
  rw [happeal, if_neg Bool.false_ne_true] at hcount
  rcases withVote_cases c₀ v with heq | ⟨isGuilty, heq⟩
  · rw [heq] at hconvicted
    cases hconvicted
  · rw [heq] at hconvicted ⊢
    cases hconvicted
    have hstatus : (({ c₀ with votes := c₀.votes ++ [v] } : Challenge).decided true
        v.timestamp).status = .verdict := by
      simp [Challenge.decided, happeal]
    refine ⟨?_, hstatus⟩
    unfold Tracks
    rw [hstatus, List.count_append, hcount, List.count_singleton_self]
    exact ⟨rfl, happeal⟩

theorem isAppeal_withVote : (c₀.withVote v).1.isAppeal = c₀.isAppeal := by
  rcases withVote_cases c₀ v with heq | ⟨isGuilty, heq⟩
  · rw [heq]
  · rw [heq]
    rfl

/-- A challenge that a vote leaves dismissed has its verdict from that vote. -/
theorem verdict_of_dismissed (hvoting : c₀.status.voting = true)
    (h : (c₀.withVote v).1.status = .dismissed) : (c₀.withVote v).2 = some false := by
  rcases withVote_cases c₀ v with heq | ⟨isGuilty, heq⟩
  · rw [heq] at h
    rw [show c₀.status = .dismissed from h] at hvoting
    cases hvoting
  · rw [heq] at h ⊢
    cases isGuilty with
    | false => rfl
    | true =>
      simp only [Challenge.decided, if_true] at h
      split at h <;> cases h

/-- Guilty: right exactly if this is no appeal. -/
theorem convicted_spec (hn : Tracked n) (hright : SlashesRight n)
    (hc₀ : n.challenges.lookup id = some c₀) (hvoting : c₀.status.voting = true)
    (hconvicted : (c₀.withVote v).2 = some true) (record : Option SlashRecord) :
    let n' : Node := ⟨n.challenges.insert id (c₀.withVote v).1, n.triggered ++ [id],
      n.executed ++ (record.map (id, ·)).toList⟩
    (c₀.isAppeal = false → Tracked n' ∧ SlashesRight n') ∧
      (SlashesRight n' → c₀.isAppeal = false) := by
  intro n'
  have hsound := sound_withVote (hn.wellVoted id c₀ hc₀) hvoting v
  constructor
  · intro happeal
    obtain ⟨htracks, hstatus⟩ := tracks_withVote_convicted hn hc₀ hvoting happeal hconvicted
    have hother : ∀ k, k ≠ id → (n.triggered ++ [id]).count k = n.triggered.count k := by
      intro k hk
      simp [List.count_append, hk.symm]
    have htracked : Tracked n' := hn.insert hsound hother htracks
    refine ⟨htracked, hright.insert htracked (fun k hk hmem => ?_) fun _ hdismissed => ?_⟩
    · rw [List.map_append, List.mem_append] at hmem
      refine hmem.resolve_right fun hlast => hk ?_
      cases record with
      | none => cases hlast
      | some r => exact List.mem_singleton.mp hlast
    · rw [hstatus] at hdismissed
      cases hdismissed
  · -- an appeal comes after a slash
    intro hafter
    by_contra happeal
    have htwice := hafter.1 id
    rw [List.count_append, hn.voting hc₀ hvoting, if_pos (Bool.not_eq_false _ ▸ happeal),
      List.count_singleton_self] at htwice
    omega

/-- Not guilty, or no verdict: right exactly if no slash is left from before an appeal. -/
theorem spared_spec (hn : Tracked n) (hright : SlashesRight n)
    (hc₀ : n.challenges.lookup id = some c₀) (hvoting : c₀.status.voting = true)
    (hspared : (c₀.withVote v).2 ≠ some true) :
    let n' : Node := { n with challenges := n.challenges.insert id (c₀.withVote v).1 }
    (((c₀.withVote v).2 = some false → c₀.isAppeal = true → id ∉ n.executed.map Prod.fst) →
      Tracked n' ∧ SlashesRight n') ∧
      (SlashesRight n' →
        (c₀.withVote v).2 = some false → c₀.isAppeal = true → id ∉ n.executed.map Prod.fst) := by
  intro n'
  have hsound := sound_withVote (hn.wellVoted id c₀ hc₀) hvoting v
  have htracked : Tracked n' :=
    hn.insert hsound (fun _ _ => rfl) (tracks_withVote_spared hn hc₀ hspared)
  constructor
  · intro hspares
    refine ⟨htracked, hright.insert htracked (fun _ _ hmem => hmem) fun happeal hdismissed => ?_⟩
    rw [isAppeal_withVote] at happeal
    exact hspares (verdict_of_dismissed hvoting hdismissed) happeal
  · intro hafter hverdict happeal
    refine hafter.2 id _ (AList.lookup_insert _) (isAppeal_withVote.trans happeal) ?_
    rcases withVote_cases c₀ v with heq | ⟨isGuilty, heq⟩
    · rw [heq] at hverdict
      cases hverdict
    · rw [heq] at hverdict ⊢
      cases hverdict
      rfl

end Vote

/-! ### Runs of the node -/

theorem tracked_new : Tracked .new := by
  refine ⟨fun _ _ h => ?_, fun _ _ => rfl, fun _ _ h => ?_⟩
  · cases h
  · cases h

theorem slashesRight_new : SlashesRight .new := by
  refine ⟨fun _ => Nat.zero_le _, fun _ _ h => ?_⟩
  cases h

section

variable [Sha3] [Iteration]

theorem nodeStep_vote {juror : Str} {guilty : Bool} {t : F64} {verdict : Option Bool}
    {ledger : LedgerView} (h : votedChallenge n.challenges id juror guilty t = .ok (c, verdict)) :
    nodeStep n ⟨.op (.vote id juror guilty t), ledger⟩ =
      if verdict = some true then
        { challenges := n.challenges.insert id c
          triggered := n.triggered ++ [id]
          executed := n.executed ++
            ((fishermanSlash ledger (pendingSlash c)).map (id, ·)).toList }
      else { n with challenges := n.challenges.insert id c } := by
  have hstep : step n.challenges (.op (.vote id juror guilty t)) = n.challenges.insert id c := by
    simp [step, applyOperation, written, h, bind, Except.bind, pure, Except.pure]
  simp only [nodeStep, convicted, hstep, h]
  rcases verdict with _ | _ | _ <;> rfl

/-- What the node does with a vote keeps the slashes right exactly if it spares an appeal. -/
theorem vote_spec (hn : Tracked n) (hright : SlashesRight n) (id juror : Str) (guilty : Bool)
    (t : F64) (ledger : LedgerView) :
    let e : NodeEvent := ⟨.op (.vote id juror guilty t), ledger⟩
    (AppealSpares n e → Tracked (nodeStep n e) ∧ SlashesRight (nodeStep n e)) ∧
      (SlashesRight (nodeStep n e) → AppealSpares n e) := by
  dsimp only
  cases hvote : votedChallenge n.challenges id juror guilty t with
  | error e =>
    have hsame : nodeStep n ⟨.op (.vote id juror guilty t), ledger⟩ = n := by
      simp only [nodeStep, convicted, step, applyOperation, written, hvote]
      rfl
    rw [hsame]
    refine ⟨fun _ => ⟨hn, hright⟩, fun _ id' juror' guilty' t' c verdict heq hok => ?_⟩
    cases heq
    rw [hvote] at hok
    cases hok
  | ok r =>
    have hspares_iff : AppealSpares n ⟨.op (.vote id juror guilty t), ledger⟩ ↔
        ∀ g, r.2 = some g → r.1.isAppeal = true → g = false ∧ id ∉ n.executed.map Prod.fst := by
      constructor
      · intro h g hg happeal
        refine h id juror guilty t r.1 g rfl ?_ happeal
        rw [hvote, ← hg]
      · intro h id' juror' guilty' t' c verdict heq hok
        cases heq
        rw [hvote] at hok
        cases hok
        exact h verdict rfl
    rw [hspares_iff, nodeStep_vote hvote]
    obtain ⟨c₀, hc₀, hvoting, -, -, -, rfl⟩ := votedChallenge_eq_ok.mp hvote
    rw [isAppeal_withVote]
    split
    · next hconvicted =>
      obtain ⟨hkeeps, hneeds⟩ := convicted_spec hn hright hc₀ hvoting hconvicted
        (fishermanSlash ledger (pendingSlash (c₀.withVote ⟨juror, guilty, t⟩).1))
      refine ⟨fun h => hkeeps (Bool.eq_false_iff.mpr fun happeal => ?_), fun h g _ happeal => ?_⟩
      · exact Bool.noConfusion (h true hconvicted happeal).1
      · exact absurd (hneeds h) (by simp [happeal])
    · next hspared =>
      obtain ⟨hkeeps, hneeds⟩ := spared_spec hn hright hc₀ hvoting hspared
      refine ⟨fun h => hkeeps fun hverdict happeal => (h false hverdict happeal).2,
        fun h g hg happeal => ?_⟩
      cases g with
      | true => exact absurd hg hspared
      | false => exact ⟨rfl, hneeds h hg happeal⟩

/-- **A step keeps the slashes right exactly if it spares appeals.** -/
theorem nodeStep_spec (hn : Tracked n) (hright : SlashesRight n) (e : NodeEvent) :
    (AppealSpares n e → Tracked (nodeStep n e) ∧ SlashesRight (nodeStep n e)) ∧
      (SlashesRight (nodeStep n e) → AppealSpares n e) := by
  obtain ⟨event, ledger⟩ := e
  -- only a vote can fail to spare
  have hspares : (∀ id juror guilty t, event ≠ .op (.vote id juror guilty t)) →
      AppealSpares n ⟨event, ledger⟩ :=
    fun hne id juror guilty t c verdict heq => absurd heq (hne id juror guilty t)
  cases event with
  | tick now =>
    exact ⟨fun _ => tracked_tick hn hright now, fun _ => hspares fun _ _ _ _ => Event.noConfusion⟩
  | op o =>
    cases o with
    | file id challenger accused type evidence t draw =>
      refine ⟨fun _ => ?_, fun _ => hspares fun _ _ _ _ heq => by cases heq⟩
      simp only [nodeStep, convicted, step, applyOperation, written]
      cases hc : newChallenge n.challenges id challenger accused type evidence t draw with
      | error e => exact ⟨hn, hright⟩
      | ok c =>
        have hsound := (wellVoted_applyOperation hn.wellVoted
          (.file id challenger accused type evidence t draw)) id c
        obtain ⟨hnew, jury, hjury, rfl⟩ := newChallenge_eq_ok hc
        simp only [applyOperation, written, hc] at hsound
        refine tracked_filed_or_appealed hn hright (hsound (AList.lookup_insert _)) ?_
          ChallengeStatus.noConfusion
        exact ⟨hn.absent id hnew, rfl⟩
    | appeal id appellant reason t draw =>
      refine ⟨fun _ => ?_, fun _ => hspares fun _ _ _ _ heq => by cases heq⟩
      simp only [nodeStep, convicted, step, applyOperation, written]
      cases hc : appealedChallenge n.challenges id appellant reason t draw with
      | error e => exact ⟨hn, hright⟩
      | ok c =>
        have hsound := (wellVoted_applyOperation hn.wellVoted
          (.appeal id appellant reason t draw)) id c
        obtain ⟨c₀, hc₀, hverdict, jury, hjury, rfl⟩ := appealedChallenge_eq_ok hc
        simp only [applyOperation, written, hc] at hsound
        refine tracked_filed_or_appealed hn hright (hsound (AList.lookup_insert _)) ?_
          ChallengeStatus.noConfusion
        have htracks := hn.present id c₀ hc₀
        unfold Tracks at htracks
        rw [hverdict] at htracks
        exact ⟨htracks.1, rfl⟩
    | vote id juror guilty t =>
      exact vote_spec hn hright id juror guilty t ledger

def nodeRun (events : List NodeEvent) : Node := events.foldl nodeStep .new

/-- **When slashes are right**: throughout every run of filings, votes, appeals and runs of the loop,
no challenge leads to two slashes and none that an appeal dismisses leaves the accused slashed, exactly
if no vote decides an appeal, unless for an accused that was not slashed for the challenge. -/
theorem slashesRight_throughout_iff (events : List NodeEvent) :
    (∀ before, before <+: events → SlashesRight (nodeRun before)) ↔
      ∀ before e, before ++ [e] <+: events → AppealSpares (nodeRun before) e := by
  refine Runs.forall_prefix_iff_of (I := fun n => Tracked n ∧ SlashesRight n) ?_ ?_ ?_
    ⟨tracked_new, slashesRight_new⟩ events
  · rintro n e ⟨hn, hright⟩ hspares
    exact (nodeStep_spec hn hright e).1 hspares
  · exact fun n => And.right
  · rintro n e ⟨hn, hright⟩ hafter
    exact (nodeStep_spec hn hright e).2 hafter

end

/-! ### Slashed twice, and slashed for nothing -/

section Samples

attribute [local instance] Smt.guardedSha3 Iteration.stored

/-- The accused has one stake, and slashes are taken in. -/
def stakeOf (amount : ℕ) : LedgerView := ⟨fun _ => some (.text "stake", amount), fun _ => true⟩

/-- A jury of one finds the accused guilty, and the jury of the appeal has its vote.  The first slash
takes a tenth of the stake. -/
def appealRun (guilty : Bool) : List NodeEvent :=
  [⟨.op (.file (.text "c") (.text "fisher") (.text "accused") .spam [.text "e"] (F64.ofNat 0)
      (loneJuror "juror")), stakeOf 1000000⟩,
    ⟨.op (.vote (.text "c") (.text "juror") true (F64.ofNat 1)), stakeOf 1000000⟩,
    ⟨.op (.appeal (.text "c") (.text "accused") (.text "no") (F64.ofNat 2)
      (loneJuror "second")), stakeOf 900000⟩,
    ⟨.op (.vote (.text "c") (.text "second") guilty (F64.ofNat 3)), stakeOf 900000⟩]

/-- The second jury brings about a second slash; or it dismisses the challenge, and the accused has
lost a tenth of its stake. -/
theorem slashed_before_appeal :
    (nodeRun (appealRun true)).executed.map (fun e => (e.1, e.2.amount)) =
        [(.text "c", 100000), (.text "c", 90000)] ∧
      ((nodeRun (appealRun false)).challenges.lookup (.text "c")).map Challenge.status =
        some .dismissed ∧
      (nodeRun (appealRun false)).executed.map (fun e => (e.1, e.2.amount)) =
        [(.text "c", 100000)] := by
  refine ⟨?_, ?_, ?_⟩ <;> decide +kernel

end Samples

end ElaraMesh.Fisherman
