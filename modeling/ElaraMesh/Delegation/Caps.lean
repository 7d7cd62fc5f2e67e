import ElaraMesh.Delegation.Registry

/-!
# The caps of a gateway

A gateway may have a million children and authorize ten thousand an hour.  A task that takes in an
authorization checks both at a gate, and applies the record later, when it holds the lock again.
The gate counts the children that are there, not the ones that wait behind it.  It counts the
authorizations of the last hour by a list of their times, from the front of which it drops the times
that are an hour older than the record at hand, in the order in which the records came.

## Main results

* `Roomy.step` — a step keeps room for the records that wait.
* `Counted.step` — a step keeps the list of the gate at the end of all times of the gateway, and
  what it drops is too old for every record that may come.
* `capsHold_of_inTime` — the caps hold throughout a run that is in time and served.
-/

namespace ElaraMesh.Delegation

open Record (Str ValidationRecord)
open Ledger (creatorIdentityHash timestampOf)
open Smt (Sha3)
open scoped List

/-! ### The gate -/

def maxChildrenPerParent : ℕ := 1000000

def maxAuthorizePerParentPerHour : ℕ := 10000

def authorizeRateWindowSeconds : F64 := .ofNat 3600

inductive AuthorizeCapDecision where
  | allowed
  | childCapExceeded
  | rateCapExceeded
  deriving DecidableEq

def checkAuthorizeCaps (childCount authorizeCountInWindow : ℕ) : AuthorizeCapDecision :=
  if childCount ≥ maxChildrenPerParent then .childCapExceeded
  else if authorizeCountInWindow ≥ maxAuthorizePerParentPerHour then .rateCapExceeded
  else .allowed

/-- Drop old times from the front. -/
def trim (now : F64) (win : List F64) : List F64 :=
  win.dropWhile fun t => t.lt (now.sub authorizeRateWindowSeconds)

namespace DelegationRegistry

def authorizeCountInWindow (g : DelegationRegistry) (parent : Str) (now : F64) :
    DelegationRegistry × ℕ :=
  let win := trim now (g.authorizeHistory.getD parent [])
  ({ g with authorizeHistory := g.authorizeHistory.insert parent win }, win.length)

def recordAuthorizeEvent (g : DelegationRegistry) (parent : Str) (now : F64) :
    DelegationRegistry × ℕ :=
  let win := trim now (g.authorizeHistory.getD parent []) ++ [now]
  ({ g with authorizeHistory := g.authorizeHistory.insert parent win }, win.length)

/-- Drop the lists whose last time is old. -/
def cleanupAuthorizeHistory (g : DelegationRegistry) (now : F64) : DelegationRegistry :=
  { g with authorizeHistory := g.authorizeHistory.retain fun _ win =>
      win.getLast?.any fun t => (now.sub authorizeRateWindowSeconds).le t }

end DelegationRegistry

section

variable [Sha3]

/-- The critical section of the gate. -/
def capacityGate (reg : DelegationRegistry) (record : ValidationRecord) :
    DelegationRegistry × AuthorizeCapDecision :=
  let parent := creatorIdentityHash record
  let childCount := reg.childCount parent
  let counted := reg.authorizeCountInWindow parent (timestampOf record)
  let decision := checkAuthorizeCaps childCount counted.2
  if decision = .allowed then
    ((counted.1.recordAuthorizeEvent parent (timestampOf record)).1, decision)
  else (counted.1, decision)

end

/-! ### Tasks -/

structure IngestState where
  registry : DelegationRegistry
  /-- A task has panicked with the lock: only the drop of expired leases still takes it. -/
  poisoned : Bool
  /-- The records that passed the gate, with those that were not applied yet apart. -/
  admitted : List ValidationRecord
  waiting : List ValidationRecord

def IngestState.new : IngestState := ⟨.new, false, [], []⟩

inductive IngestEvent where
  /-- A task comes to the gate with an authorization. -/
  | gate (r : ValidationRecord)
  /-- One of the tasks that wait applies its record. -/
  | apply (i : ℕ)
  /-- A task applies another record. -/
  | other (r : ValidationRecord)
  | prune (now : F64)

def isAuthorize (r : ValidationRecord) : Bool := metaStr r delegationOpKey = some (.text "authorize")

section

variable [Sha3]

/-- The critical section in which a record is applied. -/
def applyRecord (s : IngestState) (r : ValidationRecord) : IngestState :=
  if s.poisoned then s
  else
    match processRecord s.registry r with
    | some g => { s with registry := g }
    | none => { s with poisoned := true }

def ingestStep (s : IngestState) : IngestEvent → IngestState
  | .gate r =>
    if s.poisoned ∨ ¬ isAuthorize r then s
    else
      let gated := capacityGate s.registry r
      if gated.2 = .allowed then
        { s with registry := gated.1, admitted := s.admitted ++ [r], waiting := s.waiting ++ [r] }
      else { s with registry := gated.1 }
  | .apply i =>
    match s.waiting[i]? with
    | some r => applyRecord { s with waiting := s.waiting.eraseIdx i } r
    | none => s
  | .other r => if isAuthorize r then s else applyRecord s r
  | .prune now =>
    { s with registry := (s.registry.pruneExpired now).1.cleanupAuthorizeHistory now }

/-- The time is in the window that ends at a given time, as the gate has it. -/
def inWindow (last t : F64) : Bool := !t.lt (last.sub authorizeRateWindowSeconds) && t.le last

/-- How many authorizations of a parent were admitted whose times are in a window. -/
def admittedWithin (s : IngestState) (parent : Str) (last : F64) : ℕ :=
  s.admitted.countP fun r => creatorIdentityHash r = parent ∧ inWindow last (timestampOf r)

/-- No parent has too many children, or too many authorizations within a window. -/
def CapsHold (s : IngestState) : Prop :=
  (∀ parent, s.registry.childCount parent ≤ maxChildrenPerParent) ∧
    ∀ parent last, admittedWithin s parent last ≤ maxAuthorizePerParentPerHour

def ingestRun (events : List IngestEvent) : IngestState := events.foldl ingestStep .new

/-! ### What the gate rests on -/

/-- The authorizations of a parent come to the gate in the order of their times, and a time that a
sweep may drop is too old for each of them that comes after the sweep. -/
structure InTime (events : List IngestEvent) : Prop where
  ordered : ∀ r₀ r, [.gate r₀, .gate r] <+ events →
    creatorIdentityHash r₀ = creatorIdentityHash r → (timestampOf r₀).le (timestampOf r) = true
  swept : ∀ r₀ now r, [.gate r₀, .prune now, .gate r] <+ events →
    creatorIdentityHash r₀ = creatorIdentityHash r →
      (now.sub authorizeRateWindowSeconds).le (timestampOf r₀) = true ∨
        (timestampOf r₀).lt ((timestampOf r).sub authorizeRateWindowSeconds) = true

/-- An authorization comes to the gate when no other of its parent waits to be applied. -/
def Served (events : List IngestEvent) : Prop :=
  ∀ before r, before ++ [.gate r] <+: events →
    ∀ w ∈ (ingestRun before).waiting, creatorIdentityHash w ≠ creatorIdentityHash r

end

/-! ### Children -/

open DelegationRegistry

variable {g g' : DelegationRegistry} {a : Action} {p : Str}

theorem childCount_le_of_rel (h : ∀ c, g'.children.Rel p c → g.children.Rel p c) :
    g'.childCount p ≤ g.childCount p :=
  Finset.card_le_card h

/-- What is not an authorization gives no child to a parent. -/
theorem parent_effect {c : Str} {before : Option ActiveDelegation} {d' : ActiveDelegation}
    (ha : ∀ p c scope created expiresAt, a ≠ .authorize p c scope created expiresAt)
    (h : a.effect c before = some d') : ∃ d, before = some d ∧ d.parent = d'.parent := by
  cases a with
  | authorize p c scope created expiresAt => exact absurd rfl (ha p c scope created expiresAt)
  | revoke p c' =>
    rw [Action.effect] at h
    split at h
    · exact ⟨d', (Option.filter_eq_some_iff.mp h).1, rfl⟩
    · exact ⟨d', h, rfl⟩
  | extend p c' expiresAt =>
    rw [Action.effect] at h
    split at h
    · obtain ⟨d, hd, rfl⟩ := Option.map_eq_some_iff.mp h
      refine ⟨d, hd, ?_⟩
      split <;> rfl
    · exact ⟨d', h, rfl⟩
  | revokeAll p => exact ⟨d', (Option.filter_eq_some_iff.mp h).1, rfl⟩

theorem childCount_perform (hg : Mirrored g) (h : a.perform g = some g')
    (ha : ∀ p c scope created expiresAt, a ≠ .authorize p c scope created expiresAt) (p : Str) :
    g'.childCount p ≤ g.childCount p := by
  obtain ⟨hg', heffect⟩ := Action.perform_spec hg h
  refine childCount_le_of_rel fun c hrel => ?_
  obtain ⟨d', hd', rfl⟩ := (hg' p c).mp hrel
  rw [heffect] at hd'
  exact (hg _ c).mpr (parent_effect ha hd')

section

variable {parent child : Str} {scope : DelegationScope} {t : F64} {e : Option F64}

theorem childCount_authorize_le (hg : Mirrored g) (p : Str) :
    (g.authorizeWithExpiry parent child scope t e).childCount p ≤
      g.childCount p + if parent = p then 1 else 0 := by
  split
  · next hp =>
    subst hp
    refine le_trans (Finset.card_le_card fun c hrel => ?_) (Finset.card_insert_le child _)
    rw [Finset.mem_insert]
    exact ((rel_authorize hg _ _ _ _ _).mp hrel).imp And.right And.left
  · next hp =>
    refine childCount_le_of_rel fun c hrel => ?_
    rcases (rel_authorize hg _ _ _ _ _).mp hrel with ⟨hp', -⟩ | ⟨hrel, -⟩
    · exact absurd hp'.symm hp
    · exact hrel

end

/-! ### Authorizations -/

theorem eq_of_parse {opStr : Str} (h : DelegationOp.parse opStr = .ok .authorize) :
    opStr = .text "authorize" := by
  unfold DelegationOp.parse at h
  split at h
  · assumption
  · split at h
    · cases h
    · split at h <;> cases h

theorem isAuthorize_of_extract {r : ValidationRecord} {d : ParsedDelegation}
    (h : extractDelegation r = .ok (some d)) (hop : d.op = .authorize) : isAuthorize r = true := by
  unfold extractDelegation at h
  split at h
  · cases h
  · next v hv =>
    split at h
    · cases h
    · next opStr hstr =>
      split at h
      · cases h
      · cases hparse : DelegationOp.parse opStr with
        | error e =>
          rw [hparse] at h
          cases h
        | ok op =>
          rw [hparse] at h
          cases hchild : metaStr r (.text "delegation_child") with
          | none =>
            rw [hchild] at h
            cases h
          | some child =>
            rw [hchild] at h
            cases hscope : DelegationScope.fromStr
                ((metaStr r (.text "delegation_scope")).getD (.text "full")) with
            | none =>
              simp only [Option.elim_some, hscope] at h
              cases h
            | some scope =>
              simp only [Option.elim_some, hscope] at h
              cases h
              rw [show op = .authorize from hop] at hparse
              rw [isAuthorize, metaStr, hv, Option.bind_some, hstr, eq_of_parse hparse]
              exact decide_eq_true rfl

section

variable [Sha3] {s : IngestState} {r : ValidationRecord}

/-! ### Applying a record -/

theorem of_actionOf_authorize {c : Str} {scope : DelegationScope} {created expiresAt : F64}
    (h : actionOf r = some (.authorize p c scope created expiresAt)) :
    isAuthorize r = true ∧ creatorIdentityHash r = p := by
  unfold actionOf at h
  split at h
  · cases h
  · next d hd =>
    cases hop : d.op with
    | authorize =>
      simp only [hop, Option.some.injEq, Action.authorize.injEq] at h
      exact ⟨isAuthorize_of_extract hd hop, h.1⟩
    | revoke | revokeAll =>
      simp only [hop] at h
      cases h
    | extend =>
      simp only [hop, Option.map_eq_some_iff] at h
      obtain ⟨e, -, h⟩ := h
      cases h
  · split at h <;> cases h

theorem applyRecord_cases (s : IngestState) (r : ValidationRecord) :
    applyRecord s r = s ∨ applyRecord s r = { s with poisoned := true } ∨
      ∃ a g, actionOf r = some a ∧ a.perform s.registry = some g ∧
        applyRecord s r = { s with registry := g } := by
  unfold applyRecord
  split
  · exact .inl rfl
  · rw [processRecord_eq]
    cases ha : actionOf r with
    | none => exact .inl rfl
    | some a =>
      rw [Option.elim_some]
      cases hg : a.perform s.registry with
      | none => exact .inr (.inl rfl)
      | some g => exact .inr (.inr ⟨a, g, rfl, hg, rfl⟩)

theorem mirrored_applyRecord (hs : Mirrored s.registry) (r : ValidationRecord) :
    Mirrored (applyRecord s r).registry := by
  rcases applyRecord_cases s r with h | h | ⟨a, g, -, hg, h⟩
  · rwa [h]
  · rwa [h]
  · rw [h]
    exact (Action.perform_spec hs hg).1

/-- Only an authorization gives a child, and only to its creator. -/
theorem childCount_applyRecord (hs : Mirrored s.registry) (r : ValidationRecord) (p : Str) :
    (applyRecord s r).registry.childCount p ≤
      s.registry.childCount p + if isAuthorize r = true ∧ creatorIdentityHash r = p then 1 else 0 := by
  rcases applyRecord_cases s r with h | h | ⟨a, g, ha, hg, h⟩
  · rw [h]
    exact Nat.le_add_right _ _
  · rw [h]
    exact Nat.le_add_right _ _
  · rw [h]
    cases a with
    | authorize parent child scope t e =>
      obtain ⟨hop, rfl⟩ := of_actionOf_authorize ha
      cases hg
      simp only [hop, true_and]
      exact childCount_authorize_le hs p
    | revoke | extend | revokeAll =>
      refine (childCount_perform hs hg ?_ p).trans (Nat.le_add_right _ _)
      exact fun _ _ _ _ _ heq => by cases heq

omit [Sha3] in
theorem history_revoke (g : DelegationRegistry) (child : Str) :
    (g.revoke child).1.authorizeHistory = g.authorizeHistory := by
  unfold revoke
  split <;> rfl

omit [Sha3] in
theorem history_perform (h : a.perform g = some g') : g'.authorizeHistory = g.authorizeHistory := by
  cases a with
  | authorize parent child scope t e =>
    cases h
    exact history_revoke g child
  | revoke parent child =>
    rcases Action.perform_revoke_cases g parent child with ⟨d, -, -, heq⟩ | ⟨-, heq⟩
    · rw [heq] at h
      split at h <;> cases h
      rfl
    · rw [heq] at h
      cases h
      exact history_revoke g child
  | extend parent child e =>
    cases h
    unfold extend
    split
    · split <;> rfl
    · rfl
  | revokeAll parent =>
    cases h
    unfold revokeAllForParent
    split <;> rfl

theorem history_applyRecord (s : IngestState) (r : ValidationRecord) :
    (applyRecord s r).registry.authorizeHistory = s.registry.authorizeHistory := by
  rcases applyRecord_cases s r with h | h | ⟨a, g, -, hg, h⟩
  · rw [h]
  · rw [h]
  · rw [h]
    exact history_perform hg

theorem queues_applyRecord (s : IngestState) (r : ValidationRecord) :
    (applyRecord s r).admitted = s.admitted ∧ (applyRecord s r).waiting = s.waiting := by
  rcases applyRecord_cases s r with h | h | ⟨a, g, -, -, h⟩ <;> rw [h] <;> exact ⟨rfl, rfl⟩

/-! ### The sweep -/

omit [Sha3] in
theorem childCount_prune (hs : Mirrored g) (now : F64) (p : Str) :
    ((g.pruneExpired now).1.cleanupAuthorizeHistory now).childCount p ≤ g.childCount p := by
  refine childCount_le_of_rel fun c hrel => ?_
  obtain ⟨d, hd, hp⟩ := (mirrored_pruneExpired hs now p c).mp hrel
  rw [parentOf_pruneExpired] at hd
  exact (hs p c).mpr ⟨d, (Option.filter_eq_some_iff.mp hd).1, hp⟩

omit [Sha3] in
theorem history_pruneExpired (g : DelegationRegistry) (now : F64) :
    (g.pruneExpired now).1.authorizeHistory = g.authorizeHistory := by
  unfold pruneExpired
  refine Runs.forall_state (J := fun g' : DelegationRegistry =>
    g'.authorizeHistory = g.authorizeHistory) (fun g' child h => ?_) rfl _
  rw [history_revoke, h]

omit [Sha3] in
/-- The sweep keeps the whole list of a parent, or drops it for the age of its last time. -/
theorem history_prune (g : DelegationRegistry) (now : F64) (p : Str) :
    ((g.pruneExpired now).1.cleanupAuthorizeHistory now).authorizeHistory.getD p [] =
        g.authorizeHistory.getD p [] ∨
      ((g.pruneExpired now).1.cleanupAuthorizeHistory now).authorizeHistory.getD p [] = [] ∧
        ∀ t ∈ (g.authorizeHistory.getD p []).getLast?,
          (now.sub authorizeRateWindowSeconds).le t = false := by
  have hretain : ∀ win, ((g.pruneExpired now).1.cleanupAuthorizeHistory now).authorizeHistory.lookup p =
      some win ↔ g.authorizeHistory.lookup p = some win ∧
        (win.getLast?.any fun t => (now.sub authorizeRateWindowSeconds).le t) = true := by
    intro win
    rw [cleanupAuthorizeHistory, history_pruneExpired]
    exact Table.lookup_retain
  unfold Table.getD
  cases hafter : ((g.pruneExpired now).1.cleanupAuthorizeHistory now).authorizeHistory.lookup p with
  | some win =>
    rw [((hretain win).mp hafter).1]
    exact .inl rfl
  | none =>
    refine .inr ⟨rfl, fun t ht => ?_⟩
    cases hbefore : g.authorizeHistory.lookup p with
    | none =>
      rw [hbefore] at ht
      cases ht
    | some win =>
      rw [hbefore] at ht
      refine Bool.eq_false_iff.mpr fun hle => ?_
      have hkept := (hretain win).mpr ⟨hbefore, (Option.any_eq_true _ _).mpr ⟨t, ht, hle⟩⟩
      rw [hafter] at hkept
      cases hkept

/-! ### The gate -/

theorem children_capacityGate (g : DelegationRegistry) (r : ValidationRecord) :
    (capacityGate g r).1.children = g.children := by
  unfold capacityGate
  dsimp only
  split <;> rfl

theorem delegations_capacityGate (g : DelegationRegistry) (r : ValidationRecord) :
    (capacityGate g r).1.delegations = g.delegations := by
  unfold capacityGate
  dsimp only
  split <;> rfl

theorem capacityGate_allowed_iff {g : DelegationRegistry} {r : ValidationRecord} :
    (capacityGate g r).2 = .allowed ↔
      g.childCount (creatorIdentityHash r) < maxChildrenPerParent ∧
        (trim (timestampOf r) (g.authorizeHistory.getD (creatorIdentityHash r) [])).length <
          maxAuthorizePerParentPerHour := by
  have hdecision : (capacityGate g r).2 = checkAuthorizeCaps (g.childCount (creatorIdentityHash r))
      (trim (timestampOf r) (g.authorizeHistory.getD (creatorIdentityHash r) [])).length := by
    unfold capacityGate
    dsimp only
    split <;> rfl
  rw [hdecision, checkAuthorizeCaps]
  split
  · next h => exact iff_of_false AuthorizeCapDecision.noConfusion fun h' => absurd h'.1 (not_lt.mpr h)
  · next hchild =>
    split
    · next h => exact iff_of_false AuthorizeCapDecision.noConfusion fun h' => absurd h'.2 (not_lt.mpr h)
    · next hrate => exact iff_of_true rfl ⟨not_le.mp hchild, not_le.mp hrate⟩

/-- The gate trims the list of the parent, and adds the time of a record that it lets pass. -/
theorem history_capacityGate (g : DelegationRegistry) (r : ValidationRecord) (p : Str) :
    (capacityGate g r).1.authorizeHistory.getD p [] =
      if p = creatorIdentityHash r then
        trim (timestampOf r) (g.authorizeHistory.getD p []) ++
          if (capacityGate g r).2 = .allowed then [timestampOf r] else []
      else g.authorizeHistory.getD p [] := by
  -- the times are trimmed once to count them, and again to add one
  have htwice : ∀ win, trim (timestampOf r) (trim (timestampOf r) win) = trim (timestampOf r) win :=
    fun _ => List.dropWhile_idempotent _ _
  unfold capacityGate
  dsimp only
  split
  · next hallowed =>
    simp only [if_true, recordAuthorizeEvent, authorizeCountInWindow, Table.getD_insert]
    split
    · next hp => rw [hp, htwice]
    · rfl
  · next hrefused =>
    simp only [authorizeCountInWindow, Table.getD_insert, List.append_nil]
    split
    · next hp => rw [hp]
    · rfl

/-- The record, if the gate lets it pass. -/
def passed (g : DelegationRegistry) (r : ValidationRecord) : List ValidationRecord :=
  if (capacityGate g r).2 = .allowed then [r] else []

theorem ingestStep_gate_cases (s : IngestState) (r : ValidationRecord) :
    ingestStep s (.gate r) = s ∨
      ingestStep s (.gate r) = { s with
        registry := (capacityGate s.registry r).1
        admitted := s.admitted ++ passed s.registry r
        waiting := s.waiting ++ passed s.registry r } := by
  rw [ingestStep, passed]
  split
  · exact .inl rfl
  · dsimp only
    split
    · exact .inr rfl
    · rw [List.append_nil, List.append_nil]
      exact .inr rfl

theorem childCount_capacityGate (g : DelegationRegistry) (r : ValidationRecord) (p : Str) :
    (capacityGate g r).1.childCount p = g.childCount p := by
  rw [childCount, children_capacityGate]
  rfl

theorem mirrored_capacityGate (hg : Mirrored g) (r : ValidationRecord) :
    Mirrored (capacityGate g r).1 := by
  intro p c
  rw [children_capacityGate, parentOf, delegations_capacityGate]
  exact hg p c

/-- A step takes a record to the gate, sweeps, or leaves the admitted records and the times. -/
theorem ingestStep_cases (s : IngestState) (e : IngestEvent) :
    ((ingestStep s e).admitted = s.admitted ∧
      (ingestStep s e).registry.authorizeHistory = s.registry.authorizeHistory) ∨
    (∃ now, e = .prune now) ∨
    ∃ r, e = .gate r ∧ ingestStep s e = { s with
      registry := (capacityGate s.registry r).1
      admitted := s.admitted ++ passed s.registry r
      waiting := s.waiting ++ passed s.registry r } := by
  cases e with
  | prune now => exact .inr (.inl ⟨now, rfl⟩)
  | other r =>
    rw [ingestStep]
    split
    · exact .inl ⟨rfl, rfl⟩
    · exact .inl ⟨(queues_applyRecord s r).1, history_applyRecord s r⟩
  | apply i =>
    rw [ingestStep]
    split
    · exact .inl ⟨(queues_applyRecord _ _).1, history_applyRecord _ _⟩
    · exact .inl ⟨rfl, rfl⟩
  | gate r =>
    rcases ingestStep_gate_cases s r with h | h
    · rw [h]
      exact .inl ⟨rfl, rfl⟩
    · exact .inr (.inr ⟨r, rfl, h⟩)

/-- Only the gate admits a record. -/
theorem admitted_ingestStep (s : IngestState) (e : IngestEvent) :
    (ingestStep s e).admitted = s.admitted ∨ ∃ r, e = .gate r ∧
      (capacityGate s.registry r).2 = .allowed ∧ (ingestStep s e).admitted = s.admitted ++ [r] := by
  rcases ingestStep_cases s e with ⟨h, -⟩ | ⟨now, rfl⟩ | ⟨r, rfl, h⟩
  · exact .inl h
  · exact .inl rfl
  · rw [h, passed]
    split
    · next hallowed => exact .inr ⟨r, rfl, hallowed, rfl⟩
    · exact .inl (List.append_nil _)

/-! ### The children -/

/-- Every parent has room for the records that wait. -/
structure Roomy (s : IngestState) : Prop where
  mirrored : Mirrored s.registry
  room : ∀ p, s.registry.childCount p + s.waiting.countP (creatorIdentityHash · = p) ≤
    maxChildrenPerParent

theorem roomy_applyRecord (hs : Mirrored s.registry) (hroom : ∀ p, s.registry.childCount p +
      (if isAuthorize r = true ∧ creatorIdentityHash r = p then 1 else 0) +
        s.waiting.countP (creatorIdentityHash · = p) ≤ maxChildrenPerParent) :
    Roomy (applyRecord s r) := by
  refine ⟨mirrored_applyRecord hs r, fun p => ?_⟩
  rw [(queues_applyRecord s r).2]
  exact (Nat.add_le_add_right (childCount_applyRecord hs r p) _).trans (hroom p)

/-- **A step keeps room for the records that wait**, if no other of its parent waits when one comes
to the gate. -/
theorem Roomy.step (hs : Roomy s) (e : IngestEvent)
    (hserved : ∀ r, e = .gate r → ∀ w ∈ s.waiting, creatorIdentityHash w ≠ creatorIdentityHash r) :
    Roomy (ingestStep s e) := by
  cases e with
  | prune now =>
    refine ⟨mirrored_pruneExpired hs.mirrored now, fun p => ?_⟩
    exact (Nat.add_le_add_right (childCount_prune hs.mirrored now p) _).trans (hs.room p)
  | other r =>
    rw [ingestStep]
    split
    · exact hs
    · next hop =>
      refine roomy_applyRecord hs.mirrored fun p => ?_
      rw [if_neg fun h => hop h.1]
      exact hs.room p
  | apply i =>
    rw [ingestStep]
    cases hi : s.waiting[i]? with
    | none => exact hs
    | some r =>
      -- one record fewer waits, for at most one more child
      have hsplit : ∀ p, s.waiting.countP (creatorIdentityHash · = p) =
          (s.waiting.eraseIdx i).countP (creatorIdentityHash · = p) +
            if creatorIdentityHash r = p then 1 else 0 := by
        intro p
        obtain ⟨hlt, rfl⟩ := List.getElem?_eq_some_iff.mp hi
        rw [← (List.getElem_cons_eraseIdx_perm hlt).countP_eq, List.countP_cons]
        simp only [decide_eq_true_eq]
      refine roomy_applyRecord hs.mirrored fun p => ?_
      have hroom := hs.room p
      have hone : (if isAuthorize r = true ∧ creatorIdentityHash r = p then 1 else 0) ≤
          if creatorIdentityHash r = p then 1 else 0 := by
        split
        · next h => rw [if_pos h.2]
        · exact Nat.zero_le _
      rw [hsplit] at hroom
      dsimp only
      omega
  | gate r =>
    rcases ingestStep_gate_cases s r with h | h
    · rwa [h]
    · rw [h]
      refine ⟨mirrored_capacityGate hs.mirrored r, fun p => ?_⟩
      rw [childCount_capacityGate, List.countP_append, passed]
      split
      · next hallowed =>
        rw [List.countP_singleton]
        by_cases hp : creatorIdentityHash r = p
        · subst hp
          have hnone : s.waiting.countP (creatorIdentityHash · = creatorIdentityHash r) = 0 :=
            List.countP_eq_zero.mpr fun w hw => by simpa using hserved r rfl w hw
          rw [hnone, if_pos (decide_eq_true rfl)]
          exact (capacityGate_allowed_iff.mp hallowed).1
        · rw [if_neg (by simpa using hp)]
          exact hs.room p
      · exact hs.room p

variable {events : List IngestEvent}

theorem roomy_run (hserved : Served events) (before : List IngestEvent)
    (hbefore : before <+: events) : Roomy (ingestRun before) := by
  refine Runs.forall_prefixes (J := fun _ => True) (C := fun s e => ∀ r, e = .gate r →
    ∀ w ∈ s.waiting, creatorIdentityHash w ≠ creatorIdentityHash r) (fun _ _ _ => trivial)
    (fun s e _ hs => hs.step e) trivial ⟨mirrored_new, fun _ => Nat.zero_le _⟩ ?_ before hbefore
  intro before e hpre r he
  subst he
  exact hserved before r hpre

/-! ### The times -/

theorem InTime.mono {l l' : List IngestEvent} (h : InTime l) (hsub : l' <+ l) : InTime l' :=
  ⟨fun r₀ r hpair => h.ordered r₀ r (hpair.trans hsub),
    fun r₀ now r hthree => h.swept r₀ now r (hthree.trans hsub)⟩

def timesOf (parent : Str) (l : List ValidationRecord) : List F64 :=
  (l.filter fun r => creatorIdentityHash r = parent).map timestampOf

theorem timesOf_append (l l' : List ValidationRecord) :
    timesOf p (l ++ l') = timesOf p l ++ timesOf p l' := by
  rw [timesOf, List.filter_append, List.map_append]
  rfl

theorem timesOf_singleton (r : ValidationRecord) :
    timesOf p [r] = if p = creatorIdentityHash r then [timestampOf r] else [] := by
  by_cases hp : p = creatorIdentityHash r
  · simp [timesOf, hp]
  · simp [timesOf, hp, Ne.symm hp]

theorem admittedWithin_eq (s : IngestState) (p : Str) (last : F64) :
    admittedWithin s p last = (timesOf p s.admitted).countP (inWindow last) := by
  rw [admittedWithin, timesOf, List.countP_map, List.countP_filter]
  refine List.countP_congr fun r _ => ?_
  simp [and_comm]

/-- The times of the records that came to the gate are in order. -/
theorem pairwise_timesOf {l : List ValidationRecord}
    (h : InTime events) (hsub : l.map .gate <+ events) (p : Str) :
    (timesOf p l).Pairwise fun t t' => t.le t' = true := by
  rw [timesOf, List.pairwise_map, List.pairwise_iff_forall_sublist]
  intro r₀ r hpair
  have hof : ∀ w ∈ [r₀, r], creatorIdentityHash w = p := fun w hw =>
    of_decide_eq_true (List.mem_filter.mp (hpair.subset hw)).2
  refine h.ordered r₀ r (((hpair.trans List.filter_sublist).map _).trans hsub) ?_
  rw [hof r₀ (by simp), hof r (by simp)]

/-- The gate has the end of the list of all times of a parent, and the times before it are too old
for every record that may come. -/
structure Counted (before : List IngestEvent) : Prop where
  gated : (ingestRun before).admitted.map .gate <+ before
  behind : ∀ p, ∃ gone, timesOf p (ingestRun before).admitted =
      gone ++ (ingestRun before).registry.authorizeHistory.getD p [] ∧
    ∀ r, creatorIdentityHash r = p → InTime (before ++ [.gate r]) →
      ∀ t ∈ gone, t.lt ((timestampOf r).sub authorizeRateWindowSeconds) = true

variable {before : List IngestEvent} {e : IngestEvent}

theorem ingestRun_concat (before : List IngestEvent) (e : IngestEvent) :
    ingestRun (before ++ [e]) = ingestStep (ingestRun before) e := List.foldl_concat _ _ _ _

theorem Counted.new : Counted [] :=
  ⟨List.Sublist.refl _, fun _ => ⟨[], rfl, fun _ _ _ _ ht => absurd ht List.not_mem_nil⟩⟩

/-- The step drops times from the front of the lists of the gate, and adds the times of the records
that it admits. -/
theorem Counted.concat (h : Counted before) (added : List ValidationRecord)
    (hadmitted : (ingestStep (ingestRun before) e).admitted = (ingestRun before).admitted ++ added)
    (hgate : added.map .gate <+ [e])
    (hlists : ∀ p, ∃ dropped kept,
      (ingestRun before).registry.authorizeHistory.getD p [] = dropped ++ kept ∧
      (ingestStep (ingestRun before) e).registry.authorizeHistory.getD p [] =
        kept ++ timesOf p added ∧
      ∀ r, creatorIdentityHash r = p → InTime (before ++ [e] ++ [.gate r]) →
        ∀ t ∈ dropped, t.lt ((timestampOf r).sub authorizeRateWindowSeconds) = true) :
    Counted (before ++ [e]) := by
  refine ⟨?_, fun p => ?_⟩
  · rw [ingestRun_concat, hadmitted, List.map_append]
    exact h.gated.append hgate
  · obtain ⟨gone, htimes, hgone⟩ := h.behind p
    obtain ⟨dropped, kept, hbefore, hafter, hdropped⟩ := hlists p
    refine ⟨gone ++ dropped, ?_, fun r hr hin t ht => ?_⟩
    · rw [ingestRun_concat, hadmitted, hafter, timesOf_append, htimes, hbefore]
      simp only [List.append_assoc]
    · rcases List.mem_append.mp ht with ht | ht
      · refine hgone r hr (hin.mono ?_) t ht
        rw [List.append_assoc]
        exact (List.Sublist.refl before).append (List.sublist_append_right [e] _)
      · exact hdropped r hr hin t ht

/-- A step that changes neither. -/
theorem Counted.concat_of_eq (h : Counted before)
    (hadmitted : (ingestStep (ingestRun before) e).admitted = (ingestRun before).admitted)
    (hlists : (ingestStep (ingestRun before) e).registry.authorizeHistory =
      (ingestRun before).registry.authorizeHistory) : Counted (before ++ [e]) := by
  refine h.concat [] (hadmitted.trans (List.append_nil _).symm) (List.nil_sublist _)
    fun p => ⟨[], _, (List.nil_append _).symm, ?_, fun _ _ _ _ ht => absurd ht List.not_mem_nil⟩
  rw [hlists]
  exact (List.append_nil _).symm

/-- What the gate drops is older by an hour than the record at hand, and every later record of the
parent is at least as late. -/
theorem old_of_trimmed {r r' : ValidationRecord} (hin : InTime (before ++ [.gate r] ++ [.gate r']))
    (hp : creatorIdentityHash r = creatorIdentityHash r') {t : F64}
    (ht : t.lt ((timestampOf r).sub authorizeRateWindowSeconds) = true) :
    t.lt ((timestampOf r').sub authorizeRateWindowSeconds) = true := by
  have hpair : [.gate r] ++ [.gate r'] <+ before ++ [.gate r] ++ [.gate r'] :=
    (List.sublist_append_right before _).append (List.Sublist.refl _)
  exact F64.lt_of_lt_of_le ht (F64.sub_le_sub (hin.ordered r r' hpair hp) (by decide +kernel))

omit [Sha3] in
theorem exists_append_trim (now : F64) (win : List F64) :
    ∃ dropped, win = dropped ++ trim now win ∧
      ∀ t ∈ dropped, t.lt (now.sub authorizeRateWindowSeconds) = true :=
  ⟨_, List.takeWhile_append_dropWhile.symm, fun _ => List.mem_takeWhile_imp⟩

/-- The gate drops what is old from the front of the list of the parent. -/
theorem dropped_capacityGate (g : DelegationRegistry) (r : ValidationRecord) (p : Str) :
    ∃ dropped kept, g.authorizeHistory.getD p [] = dropped ++ kept ∧
      (capacityGate g r).1.authorizeHistory.getD p [] =
        kept ++ timesOf p (passed g r) ∧
      ∀ t ∈ dropped, p = creatorIdentityHash r ∧
        t.lt ((timestampOf r).sub authorizeRateWindowSeconds) = true := by
  rw [history_capacityGate, passed, apply_ite (timesOf p), timesOf_singleton]
  by_cases hp : p = creatorIdentityHash r
  · rw [if_pos hp, if_pos hp]
    obtain ⟨dropped, hsplit, hold⟩ := exists_append_trim (timestampOf r) (g.authorizeHistory.getD p [])
    exact ⟨dropped, _, hsplit, rfl, fun t ht => ⟨hp, hold t ht⟩⟩
  · rw [if_neg hp, if_neg hp]
    refine ⟨[], _, (List.nil_append _).symm, ?_, fun t ht => absurd ht List.not_mem_nil⟩
    split <;> exact (List.append_nil _).symm

/-- What a sweep drops is no later than a time that is too old for it. -/
theorem Counted.prune (h : Counted before) (hin : InTime before) (now : F64) :
    Counted (before ++ [.prune now]) := by
  refine h.concat [] (List.append_nil _).symm (List.nil_sublist _) fun p => ?_
  rcases history_prune (ingestRun before).registry now p with hkept | ⟨hempty, hlast⟩
  · refine ⟨[], _, (List.nil_append _).symm, ?_, fun _ _ _ _ ht => absurd ht List.not_mem_nil⟩
    exact hkept.trans (List.append_nil _).symm
  · refine ⟨_, [], (List.append_nil _).symm, hempty, fun r hr hin' t ht => ?_⟩
    rcases List.eq_nil_or_concat' ((ingestRun before).registry.authorizeHistory.getD p []) with
      hnil | ⟨init, last, hwin⟩
    · rw [hnil] at ht
      cases ht
    obtain ⟨gone, htimes, -⟩ := h.behind p
    rw [hwin] at ht htimes hlast
    rw [← List.append_assoc] at htimes
    have hsorted := pairwise_timesOf hin h.gated p
    rw [htimes, List.pairwise_append] at hsorted
    -- the last time is that of a record that came to the gate before the sweep
    obtain ⟨r₀, hr₀, rfl⟩ : ∃ r₀ ∈ (ingestRun before).admitted.filter (creatorIdentityHash · = p),
        timestampOf r₀ = last := by
      refine List.mem_map.mp (?_ : last ∈ timesOf p (ingestRun before).admitted)
      rw [htimes]
      exact List.mem_append_right _ (List.mem_singleton_self _)
    obtain ⟨hadmitted, hp⟩ := List.mem_filter.mp hr₀
    have hbefore : IngestEvent.gate r₀ ∈ before := h.gated.subset (List.mem_map_of_mem hadmitted)
    have hold : (timestampOf r₀).lt ((timestampOf r).sub authorizeRateWindowSeconds) = true := by
      refine (hin'.swept r₀ now r ?_ ((of_decide_eq_true hp).trans hr.symm)).resolve_left ?_
      · exact ((List.singleton_sublist.mpr hbefore).append (List.Sublist.refl [.prune now])).append
          (List.Sublist.refl [.gate r])
      · rw [hlast _ (by simp)]
        exact Bool.false_ne_true
    rcases List.mem_append.mp ht with ht | ht
    · exact F64.lt_of_le_of_lt
        (hsorted.2.2 t (List.mem_append_right _ ht) _ (List.mem_singleton_self _)) hold
    · rw [List.mem_singleton.mp ht]
      exact hold

/-- **A step keeps the list of the gate at the end of all times.** -/
theorem Counted.step (h : Counted before) (hin : InTime (before ++ [e])) :
    Counted (before ++ [e]) := by
  rcases ingestStep_cases (ingestRun before) e with ⟨hadmitted, hlists⟩ | ⟨now, rfl⟩ | ⟨r, rfl, heq⟩
  · exact h.concat_of_eq hadmitted hlists
  · exact h.prune (hin.mono (List.sublist_append_left _ _)) now
  · have hgate : (passed (ingestRun before).registry r).map .gate <+ [IngestEvent.gate r] := by
      rw [passed]
      split
      · exact List.Sublist.refl _
      · exact List.nil_sublist _
    refine h.concat _ (by rw [heq]) hgate fun p => ?_
    obtain ⟨dropped, kept, hbefore, hafter, hold⟩ :=
      dropped_capacityGate (ingestRun before).registry r p
    refine ⟨dropped, kept, hbefore, by rw [heq, hafter], fun r' hr' hin' t ht => ?_⟩
    exact old_of_trimmed hin' ((hold t ht).1.symm.trans hr'.symm) (hold t ht).2

omit [Sha3] in
/-- A window that ends after a record has nothing that is too old for the record. -/
theorem inWindow_eq_false {now last t : F64} (hlast : inWindow last now = true)
    (ht : t.lt (now.sub authorizeRateWindowSeconds) = true) : inWindow last t = false := by
  have hle : now.le last = true := (Bool.and_eq_true_iff.mp hlast).2
  have hold := F64.lt_of_lt_of_le ht
    (F64.sub_le_sub (w := authorizeRateWindowSeconds) hle (by decide +kernel))
  rw [inWindow, hold]
  rfl

/-- A record that the gate lets pass finds fewer than the cap in each window that it is in. -/
theorem Counted.admittedWithin_lt (h : Counted before) (hin : InTime (before ++ [.gate r]))
    (hallowed : (capacityGate (ingestRun before).registry r).2 = .allowed) {last : F64}
    (hlast : inWindow last (timestampOf r) = true) :
    admittedWithin (ingestRun before) (creatorIdentityHash r) last < maxAuthorizePerParentPerHour := by
  obtain ⟨gone, htimes, hgone⟩ := h.behind (creatorIdentityHash r)
  have hold : ∀ l : List F64, (∀ t ∈ l, t.lt ((timestampOf r).sub authorizeRateWindowSeconds) = true) →
      l.countP (inWindow last) = 0 := by
    intro l hl
    refine List.countP_eq_zero.mpr fun t ht => ?_
    rw [inWindow_eq_false hlast (hl t ht)]
    exact Bool.false_ne_true
  obtain ⟨dropped, hsplit, hdropped⟩ := exists_append_trim (timestampOf r)
    ((ingestRun before).registry.authorizeHistory.getD (creatorIdentityHash r) [])
  rw [admittedWithin_eq, htimes, hsplit, List.countP_append, List.countP_append,
    hold gone (hgone r rfl hin), hold dropped hdropped, Nat.zero_add, Nat.zero_add]
  exact List.countP_le_length.trans_lt (capacityGate_allowed_iff.mp hallowed).2

theorem counted_run (hin : InTime events) : Counted events := by
  induction events using List.reverseRecOn with
  | nil => exact Counted.new
  | append_singleton before e ih => exact (ih (hin.mono (List.sublist_append_left _ _))).step hin

/-- **No window has more admissions than the cap** in a run that is in time. -/
theorem admittedWithin_le (hin : InTime events) (p : Str) (last : F64) :
    admittedWithin (ingestRun events) p last ≤ maxAuthorizePerParentPerHour := by
  induction events using List.reverseRecOn with
  | nil => exact Nat.zero_le _
  | append_singleton before e ih =>
    have hbefore : InTime before := hin.mono (List.sublist_append_left _ _)
    have hcap := ih hbefore
    rw [admittedWithin_eq] at hcap
    rw [admittedWithin_eq, ingestRun_concat]
    rcases admitted_ingestStep (ingestRun before) e with h | ⟨r, rfl, hallowed, h⟩
    · rwa [h]
    · rw [h, timesOf_append, List.countP_append, timesOf_singleton]
      split
      · next hp =>
        subst hp
        cases hlast : inWindow last (timestampOf r) with
        | false => rwa [List.countP_singleton, hlast]
        | true =>
          rw [List.countP_singleton, hlast, ← admittedWithin_eq]
          exact (counted_run hbefore).admittedWithin_lt hin hallowed hlast
      · exact hcap

/-- **When the caps hold**: throughout every run in which the authorizations of each parent come in
the order of their times, no sweep drops a time that one of them has to count, and none of them comes
to the gate while another of its parent waits to be applied. -/
theorem capsHold_of_inTime (events : List IngestEvent) (hserved : Served events)
    (hin : InTime events) : ∀ before, before <+: events → CapsHold (ingestRun before) := by
  intro before hbefore
  refine ⟨fun p => ?_, admittedWithin_le (hin.mono hbefore.sublist)⟩
  exact (Nat.le_add_right _ _).trans ((roomy_run hserved before hbefore).room p)

/-! ### Runs that can be tested -/

/-- Do two or three events in a row fit? -/
def fits : List IngestEvent → Bool
  | [.gate r₀, .gate r] =>
    creatorIdentityHash r₀ ≠ creatorIdentityHash r || (timestampOf r₀).le (timestampOf r)
  | [.gate r₀, .prune now, .gate r] =>
    creatorIdentityHash r₀ ≠ creatorIdentityHash r ||
      (now.sub authorizeRateWindowSeconds).le (timestampOf r₀) ||
        (timestampOf r₀).lt ((timestampOf r).sub authorizeRateWindowSeconds)
  | _ => true

theorem inTime_iff :
    InTime events ↔ ∀ l ∈ events.sublists, fits l = true := by
  constructor
  · intro h l hl
    rw [List.mem_sublists] at hl
    unfold fits
    split
    · next r₀ r =>
      by_cases hp : creatorIdentityHash r₀ = creatorIdentityHash r
      · simp [h.ordered r₀ r hl hp]
      · simp [hp]
    · next r₀ now r =>
      by_cases hp : creatorIdentityHash r₀ = creatorIdentityHash r
      · rcases h.swept r₀ now r hl hp with h | h <;> simp [h]
      · simp [hp]
    · rfl
  · intro h
    refine ⟨fun r₀ r hsub hp => ?_, fun r₀ now r hsub hp => ?_⟩
    · simpa [fits, hp] using h _ (List.mem_sublists.mpr hsub)
    · simpa [fits, hp] using h _ (List.mem_sublists.mpr hsub)

instance (events : List IngestEvent) : Decidable (InTime events) := decidable_of_iff' _ inTime_iff

/-- Is the last event no authorization, or one that nothing of its parent waits for? -/
def servedAt (events : List IngestEvent) : Bool :=
  match events.getLast? with
  | some (.gate r) =>
    (ingestRun events.dropLast).waiting.all fun w => creatorIdentityHash w ≠ creatorIdentityHash r
  | _ => true

theorem served_iff :
    Served events ↔ ∀ l ∈ events.inits, servedAt l = true := by
  constructor
  · intro h l hl
    rw [List.mem_inits] at hl
    unfold servedAt
    split
    · next r hlast =>
      obtain ⟨before, rfl⟩ := List.getLast?_eq_some_iff.mp hlast
      rw [List.dropLast_concat]
      simpa using h before r hl
    · rfl
  · intro h before r hpre
    simpa [servedAt] using h _ (List.mem_inits _ _ |>.mpr hpre)

instance (events : List IngestEvent) : Decidable (Served events) := decidable_of_iff' _ served_iff

/-! ### Times out of order -/

/-- A parent without children, by the times that the gate has of it. -/
structure Gated (s : IngestState) (parent : Str) (win : List F64) (admitted : List ValidationRecord) :
    Prop where
  poisoned : s.poisoned = false
  childless : s.registry.childCount parent = 0
  history : s.registry.authorizeHistory.getD parent [] = win
  admitted : s.admitted = admitted

/-- The gate lets a record pass if few times are left after the trim. -/
theorem Gated.step {parent : Str} {win : List F64} {l : List ValidationRecord}
    (hs : Gated s parent win l) (hop : isAuthorize r = true)
    (hparent : creatorIdentityHash r = parent)
    (hwin : (trim (timestampOf r) win).length < maxAuthorizePerParentPerHour) :
    Gated (ingestStep s (.gate r)) parent (trim (timestampOf r) win ++ [timestampOf r])
      (l ++ [r]) := by
  subst hparent
  have hskip : ¬ (s.poisoned = true ∨ ¬ isAuthorize r = true) := by simp [hs.poisoned, hop]
  have hallowed : (capacityGate s.registry r).2 = .allowed := by
    rw [capacityGate_allowed_iff, hs.childless, hs.history]
    exact ⟨by decide, hwin⟩
  rw [ingestStep, if_neg hskip]
  dsimp only
  rw [if_pos hallowed]
  refine ⟨hs.poisoned, ?_, ?_, congrArg (· ++ [r]) hs.admitted⟩
  · rw [childCount_capacityGate]
    exact hs.childless
  · rw [history_capacityGate, if_pos rfl, if_pos hallowed, hs.history]

end

section Samples

/-- A gateway authorizes one device after the other. -/
def burst (i seconds : ℕ) : ValidationRecord :=
  { Ledger.plainRecord "" 1 seconds with
    id := Str.hex [UInt8.ofNat (i / 256), UInt8.ofNat i]
    metadata := [(.text "delegation_child", .string (Str.hex [UInt8.ofNat (i / 256), UInt8.ofNat i])),
      (delegationOpKey, .string (.text "authorize"))] }

/-- Some records of one second, one that is two hours later, and one more of the second. -/
def outOfOrder (n : ℕ) : List IngestEvent :=
  (List.range n).map (fun i => .gate (burst i 0)) ++ [.gate (burst n 7200)] ++
    [.gate (burst (n + 1) 0)]

theorem isAuthorize_burst (i seconds : ℕ) : isAuthorize (burst i seconds) = true := by
  have hkey : (delegationOpKey == Str.text "delegation_child") = false := by decide +kernel
  simp [isAuthorize, metaStr, burst, List.lookup_cons, hkey, Record.Value.asStr]

theorem trim_replicate (n : ℕ) :
    trim (.ofNat 0) (List.replicate n (.ofNat 0)) = List.replicate n (.ofNat 0) := by
  have hnow : (F64.ofNat 0).lt ((F64.ofNat 0).sub authorizeRateWindowSeconds) = false := by
    decide +kernel
  cases n with
  | zero => rfl
  | succ n => rw [trim, List.replicate_succ, List.dropWhile_cons_of_neg (by rw [hnow]; decide)]

theorem trim_replicate_later (n : ℕ) : trim (.ofNat 7200) (List.replicate n (.ofNat 0)) = [] := by
  have hold : (F64.ofNat 0).lt ((F64.ofNat 7200).sub authorizeRateWindowSeconds) = true := by
    decide +kernel
  refine List.dropWhile_eq_nil_iff.mpr fun t ht => ?_
  rw [List.eq_of_mem_replicate ht]
  exact hold

variable {n : ℕ}

theorem gated_burst [Sha3] (hn : n ≤ maxAuthorizePerParentPerHour) :
    Gated (ingestRun ((List.range n).map fun i => .gate (burst i 0))) (Record.sha3Hex [1])
      (List.replicate n (.ofNat 0)) ((List.range n).map (burst · 0)) := by
  induction n with
  | zero => exact ⟨rfl, rfl, rfl, rfl⟩
  | succ n ih =>
    have htime : timestampOf (burst n 0) = .ofNat 0 := rfl
    have hlen : (trim (timestampOf (burst n 0)) (List.replicate n (.ofNat 0))).length <
        maxAuthorizePerParentPerHour := by
      rw [htime, trim_replicate, List.length_replicate]
      exact hn
    have hstep := (ih (Nat.le_of_succ_le hn)).step (isAuthorize_burst n 0) rfl hlen
    rw [htime, trim_replicate] at hstep
    rw [List.range_succ, List.map_append, List.map_append, List.replicate_succ', ingestRun,
      List.foldl_append]
    exact hstep

theorem admitted_outOfOrder [Sha3] (hn : n ≤ maxAuthorizePerParentPerHour) :
    (ingestRun (outOfOrder n)).admitted =
      (List.range n).map (burst · 0) ++ [burst n 7200] ++ [burst (n + 1) 0] := by
  have hlater : timestampOf (burst n 7200) = .ofNat 7200 := rfl
  have hlast : timestampOf (burst (n + 1) 0) = .ofNat 0 := rfl
  have hkept : (F64.ofNat 7200).lt ((F64.ofNat 0).sub authorizeRateWindowSeconds) = false := by
    decide +kernel
  have hpassed := (gated_burst hn).step (isAuthorize_burst n 7200) rfl
    (by rw [hlater, trim_replicate_later]; decide)
  rw [hlater, trim_replicate_later, List.nil_append] at hpassed
  have htrim : trim (.ofNat 0) [.ofNat 7200] = [.ofNat 7200] := by
    rw [trim, List.dropWhile_cons_of_neg (by rw [hkept]; decide)]
  have hagain := hpassed.step (isAuthorize_burst (n + 1) 0) rfl (by rw [hlast, htrim]; decide)
  rw [outOfOrder, ingestRun, List.foldl_append, List.foldl_append]
  exact hagain.admitted

/-- The record that is later empties the list of the gate, so that the last one passes. -/
theorem lt_admittedWithin_outOfOrder [Sha3] (hn : n ≤ maxAuthorizePerParentPerHour) :
    n < admittedWithin (ingestRun (outOfOrder n)) (Record.sha3Hex [1]) (.ofNat 0) := by
  have hin : inWindow (.ofNat 0) (.ofNat 0) = true := by decide +kernel
  have hcounted : ∀ i, creatorIdentityHash (burst i 0) = Record.sha3Hex [1] ∧
      inWindow (.ofNat 0) (timestampOf (burst i 0)) = true := fun _ => ⟨rfl, hin⟩
  have hall : ((List.range n).map (burst · 0)).countP (fun r =>
      creatorIdentityHash r = Record.sha3Hex [1] ∧ inWindow (.ofNat 0) (timestampOf r)) = n := by
    rw [List.countP_eq_length.mpr, List.length_map, List.length_range]
    intro r hr
    obtain ⟨i, -, rfl⟩ := List.mem_map.mp hr
    exact decide_eq_true (hcounted i)
  rw [admittedWithin, admitted_outOfOrder hn, List.countP_append, List.countP_append, hall,
    List.countP_singleton, List.countP_singleton, if_pos (decide_eq_true (hcounted (n + 1)))]
  exact Nat.lt_succ_of_le (Nat.le_add_right _ _)

attribute [local instance] Smt.guardedSha3

/-- A record of the gateway waits while another gateway comes to the gate; it is applied before the
next one of the gateway comes, and a sweep drops the times in between. -/
def twoGateways : List IngestEvent :=
  [.gate (burst 0 0), .gate { burst 1 5 with creatorPublicKey := [2] }, .apply 0, .prune (.ofNat 4000),
    .gate (burst 2 7200), .apply 1]

theorem capsHold_twoGateways : Served twoGateways ∧ InTime twoGateways ∧
    (ingestRun twoGateways).admitted.length = 3 ∧
      ∀ before, before <+: twoGateways → CapsHold (ingestRun before) :=
  ⟨by decide +kernel, by decide +kernel, by decide +kernel,
    capsHold_of_inTime twoGateways (by decide +kernel) (by decide +kernel)⟩

/-- More than ten thousand authorizations of one second are admitted. -/
theorem rate_cap_exceeded : maxAuthorizePerParentPerHour <
    admittedWithin (ingestRun (outOfOrder maxAuthorizePerParentPerHour)) (Record.sha3Hex [1])
      (.ofNat 0) :=
  lt_admittedWithin_outOfOrder (le_refl _)

end Samples

end ElaraMesh.Delegation
