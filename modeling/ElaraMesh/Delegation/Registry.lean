import ElaraMesh.Ledger.Outcome
import ElaraMesh.Ledger.Records
import ElaraMesh.Lib.Multimap
import ElaraMesh.Record.Metadata

/-!
# Delegations

A gateway signs for devices that cannot do so.  By a record it authorizes a device as its child, for
a scope and until a lease ends; by other records it extends the lease, revokes one child or all of
them.  The registry keeps what is in force, from each child to its parent and from each parent to
its children.

## Main results

* `processRecord_eq` — a record is applied by what it asks for.
* `perform_spec` — an action keeps the directions together and has its effect on every child.
* `perform_eq_none_iff` — what panics.
-/

namespace ElaraMesh.Delegation

open Record (Str Value ValidationRecord)
open Ledger (Stop Piece ElaraError fail creatorIdentityHash timestampOf Earlier)
open Smt (Sha3)

/-! ### What a record says -/

def delegationOpKey : Str := .text "delegation_op"

def expiresAtKey : Str := .text "expires_at"

def revokeAllParentKey : Str := .text "revoke_all_parent"

def revokeAllReasonKey : Str := .text "revoke_all_reason"

def revokeAllCosignersKey : Str := .text "revoke_all_cosigners"

def defaultLeaseSeconds : F64 := .ofNat (30 * 86400)

inductive DelegationOp where
  | authorize
  | revoke
  | revokeAll
  | extend
  deriving DecidableEq

def DelegationOp.parse (opStr : Str) : Except ElaraError DelegationOp :=
  if opStr = .text "authorize" then .ok .authorize
  else if opStr = .text "revoke" then .ok .revoke
  else if opStr = .text "extend" then .ok .extend
  else .error (.wire [.text "unknown delegation_op: ", .str opStr])

/-- May the child submit any record, or batches only? -/
inductive DelegationScope where
  | full
  | batchOnly
  deriving DecidableEq

def DelegationScope.fromStr (s : Str) : Option DelegationScope :=
  if s = .text "full" then some .full
  else if s = .text "batch_only" then some .batchOnly
  else none

inductive RevokeReason where
  | compromised
  | expired
  | rotated
  deriving DecidableEq

def RevokeReason.fromStr (s : Str) : Option RevokeReason :=
  if s = .text "compromised" then some .compromised
  else if s = .text "expired" then some .expired
  else if s = .text "rotated" then some .rotated
  else none

structure ParsedDelegation where
  op : DelegationOp
  child : Str
  scope : DelegationScope
  deriving DecidableEq

structure CosignerProof where
  publicKeyHex : Str
  signatureHex : Str
  deriving DecidableEq

structure ParsedRevokeAll where
  parentToDisarm : Str
  reason : RevokeReason
  /-- None if the parent asks for it. -/
  cosigners : List CosignerProof
  deriving DecidableEq

def metaStr (record : ValidationRecord) (key : Str) : Option Str :=
  (record.metadata.lookup key).bind Value.asStr

/-- The time at which the lease ends, if it is a number and finite. -/
def extractExpiresAt (record : ValidationRecord) : Option F64 :=
  ((record.metadata.lookup expiresAtKey).bind Value.asF64).filter F64.isFinite

def defaultExpiresAt (created : F64) : F64 := created.add defaultLeaseSeconds

/-- The operation on one child; nothing if there is none, or if it is on all children. -/
def extractDelegation (record : ValidationRecord) : Except ElaraError (Option ParsedDelegation) :=
  match record.metadata.lookup delegationOpKey with
  | none => .ok none
  | some opVal =>
    match opVal.asStr with
    | none => .error (.wire [.text "delegation_op must be a string"])
    | some opStr => do
      if opStr = .text "revoke_all" then return none
      let op ← DelegationOp.parse opStr
      let child ← (metaStr record (.text "delegation_child")).elim
        (.error (.wire [.text "missing delegation_child"])) .ok
      let scopeStr := (metaStr record (.text "delegation_scope")).getD (.text "full")
      let scope ← (DelegationScope.fromStr scopeStr).elim
        (.error (.wire [.text "invalid delegation_scope: ", .str scopeStr])) .ok
      return some ⟨op, child, scope⟩

/-- The cosigner at a place of the list. -/
def parseCosigner (i : ℕ) : Value → Except ElaraError CosignerProof
  | .object fields => do
    let publicKeyHex ← ((fields.lookup (.text "public_key")).bind Value.asStr).elim
      (.error (.wire [.text "revoke_all_cosigners[", .num i, .text "].public_key missing"])) .ok
    let signatureHex ← ((fields.lookup (.text "signature")).bind Value.asStr).elim
      (.error (.wire [.text "revoke_all_cosigners[", .num i, .text "].signature missing"])) .ok
    return ⟨publicKeyHex, signatureHex⟩
  | _ => .error (.wire [.text "revoke_all_cosigners[", .num i, .text "] not an object"])

def parseCosigners : Option Value → Except ElaraError (List CosignerProof)
  | some (.array items) => items.zipIdx.mapM fun entry => parseCosigner entry.2 entry.1
  | some .null => .ok []
  | none => .ok []
  | some _ => .error (.wire [.text "revoke_all_cosigners must be an array"])

/-- The operation on all children of a parent, if the record has it. -/
def extractRevokeAll (record : ValidationRecord) : Except ElaraError (Option ParsedRevokeAll) :=
  match metaStr record delegationOpKey with
  | none => .ok none
  | some opStr =>
    if opStr ≠ .text "revoke_all" then .ok none
    else do
      let parentToDisarm ← ((metaStr record revokeAllParentKey).filter fun s => s ≠ .empty).elim
        (.error (.wire [.text "missing revoke_all_parent"])) .ok
      let reasonStr ← (metaStr record revokeAllReasonKey).elim
        (.error (.wire [.text "missing revoke_all_reason"])) .ok
      let reason ← (RevokeReason.fromStr reasonStr).elim
        (.error (.wire [.text "invalid revoke_all_reason: ", .str reasonStr])) .ok
      let cosigners ← parseCosigners (record.metadata.lookup revokeAllCosignersKey)
      return some ⟨parentToDisarm, reason, cosigners⟩

/-! ### The registry -/

structure ActiveDelegation where
  parent : Str
  scope : DelegationScope
  created : F64
  /-- Never if there is none. -/
  expiresAt : Option F64
  deriving DecidableEq

structure DelegationRegistry where
  /-- From a child to what is in force for it. -/
  delegations : Table Str ActiveDelegation
  children : Table Str (Finset Str)
  /-- From a parent to the times of its latest authorizations. -/
  authorizeHistory : Table Str (List F64)

def firstChars : ℕ → List UInt8 → List UInt8
  | _, [] => []
  | n, b :: l =>
    if Record.isContinuation b then b :: firstChars n l
    else
      match n with
      | 0 => []
      | n + 1 => b :: firstChars n l

/-- The first 16 characters, in an error. -/
def short (s : Str) : Piece :=
  .str ((Str.fromUtf8 (firstChars 16 s.bytes)).toOption.getD .empty)

namespace DelegationRegistry

def new : DelegationRegistry := ⟨∅, ∅, ∅⟩

def parentOf (g : DelegationRegistry) (child : Str) : Option ActiveDelegation :=
  g.delegations.lookup child

def childCount (g : DelegationRegistry) (parent : Str) : ℕ := (g.children.getD parent ∅).card

/-- Also tells whether there was a delegation. -/
def revoke (g : DelegationRegistry) (child : Str) : DelegationRegistry × Bool :=
  match g.delegations.lookup child with
  | some delegation =>
    ({ g with
      delegations := g.delegations.erase child
      children := g.children.unlink delegation.parent child }, true)
  | none => (g, false)

/-- What was in force for the child ends. -/
def authorizeWithExpiry (g : DelegationRegistry) (parent child : Str) (scope : DelegationScope)
    (timestamp : F64) (expiresAt : Option F64) : DelegationRegistry :=
  let g := (g.revoke child).1
  { g with
    delegations := g.delegations.insert child ⟨parent, scope, timestamp, expiresAt⟩
    children := g.children.link parent child }

/-- Only the parent extends a lease. -/
def extend (g : DelegationRegistry) (parent child : Str) (newExpiresAt : F64) :
    Except ElaraError DelegationRegistry :=
  match g.delegations.lookup child with
  | some d =>
    if d.parent = parent then
      .ok { g with
        delegations := g.delegations.insert child { d with expiresAt := some newExpiresAt } }
    else
      .error (.wire [.text "only parent ", short d.parent, .text " can extend delegation for ",
        short child])
  | none => .error (.wire [.text "no active delegation for child ", short child])

/-- Drop what has expired; also gives the dropped children in order. -/
def pruneExpired (g : DelegationRegistry) (now : F64) : DelegationRegistry × List Str :=
  let toDrop := g.delegations.keys.filter fun child =>
    (g.delegations.lookup child).any fun d => d.expiresAt.any fun exp => exp.lt now
  (toDrop.foldl (fun g child => (g.revoke child).1) g, toDrop.insertionSort (· ≤ ·))

/-- Drop all children of a parent; also gives them in order. -/
def revokeAllForParent (g : DelegationRegistry) (parent : Str) : DelegationRegistry × List Str :=
  match g.children.lookup parent with
  | none => (g, [])
  | some childrenSet =>
    let dropped := (SetWalk.sorted : SetWalk Str).walk childrenSet
    ({ g with
      delegations := dropped.foldl (fun t child => t.erase child) g.delegations
      children := g.children.erase parent }, dropped)

end DelegationRegistry

/-! ### Applying records -/

section

variable [Sha3]

/-- Apply a record.  That it may is checked before, but for a revocation. -/
def applyDelegation (record : ValidationRecord) (registry : DelegationRegistry) :
    Except Stop DelegationRegistry :=
  match extractDelegation record with
  | .error e => .error (.err e)
  | .ok (some delegation) =>
    let parent := creatorIdentityHash record
    match delegation.op with
    | .authorize =>
      let expiresAt := (extractExpiresAt record).getD (defaultExpiresAt (timestampOf record))
      .ok (registry.authorizeWithExpiry parent delegation.child delegation.scope
        (timestampOf record) (some expiresAt))
    | .revoke =>
      match registry.parentOf delegation.child with
      | some existing =>
        if existing.parent ≠ parent then
          .error (fail (.wire [.text "only parent ", .clip existing.parent,
            .text " can revoke delegation for ", .clip delegation.child]))
        else .ok (registry.revoke delegation.child).1
      | none => .ok (registry.revoke delegation.child).1
    | .extend =>
      match extractExpiresAt record with
      | none =>
        .error (.err (.wire [.text "extend op missing or non-finite expires_at metadata"]))
      | some newExpiry => (registry.extend parent delegation.child newExpiry).mapError .err
    | .revokeAll =>
      .error (.err (.wire [.text
        "delegation parser dispatch error: revoke_all reached one-child branch"]))
  | .ok none =>
    match extractRevokeAll record with
    | .error e => .error (.err e)
    | .ok (some parsed) => .ok (registry.revokeAllForParent parsed.parentToDisarm).1
    | .ok none => .error (.err (.wire [.text "not a delegation record"]))

/-- Apply a record if it is one for the registry, and pass over an error.  Nothing comes back from a
panic. -/
def processRecord (g : DelegationRegistry) (record : ValidationRecord) : Option DelegationRegistry :=
  if (record.metadata.lookup delegationOpKey).isSome then
    match applyDelegation record g with
    | .ok g' => some g'
    | .error e => if e.isErr then some g else none
  else some g

def processRecords (g : DelegationRegistry) (records : List ValidationRecord) :
    Option DelegationRegistry :=
  records.foldlM processRecord g

def rebuildDelegationRegistryFromRecords (allRecords : List ValidationRecord) :
    Option DelegationRegistry :=
  processRecords .new (allRecords.insertionSort Earlier)

end

/-! ### What a record asks for -/

inductive Action where
  | authorize (parent child : Str) (scope : DelegationScope) (created expiresAt : F64)
  | revoke (parent child : Str)
  | extend (parent child : Str) (expiresAt : F64)
  | revokeAll (parent : Str)
  deriving DecidableEq

def actionOf [Sha3] (record : ValidationRecord) : Option Action :=
  match extractDelegation record with
  | .error _ => none
  | .ok (some delegation) =>
    let parent := creatorIdentityHash record
    match delegation.op with
    | .authorize =>
      some (.authorize parent delegation.child delegation.scope (timestampOf record)
        ((extractExpiresAt record).getD (defaultExpiresAt (timestampOf record))))
    | .revoke => some (.revoke parent delegation.child)
    | .extend => (extractExpiresAt record).map (.extend parent delegation.child)
    | .revokeAll => none
  | .ok none =>
    match extractRevokeAll record with
    | .ok (some parsed) => some (.revokeAll parsed.parentToDisarm)
    | _ => none

namespace Action

/-- What an action means for one child, by what is in force for it. -/
def effect (child : Str) (before : Option ActiveDelegation) : Action → Option ActiveDelegation
  | authorize parent c scope created expiresAt =>
    if child = c then some ⟨parent, scope, created, some expiresAt⟩ else before
  | revoke parent c => if child = c then before.filter (·.parent ≠ parent) else before
  | extend parent c expiresAt =>
    if child = c then
      before.map fun d => if d.parent = parent then { d with expiresAt := some expiresAt } else d
    else before
  | revokeAll parent => before.filter (·.parent ≠ parent)

/-- Carry out an action; nothing comes back from a panic. -/
def perform (g : DelegationRegistry) : Action → Option DelegationRegistry
  | authorize parent child scope created expiresAt =>
    some (g.authorizeWithExpiry parent child scope created (some expiresAt))
  | revoke parent child =>
    match g.parentOf child with
    | some d =>
      if d.parent ≠ parent then
        if (Piece.clip d.parent).prints ∧ (Piece.clip child).prints then some g else none
      else some (g.revoke child).1
    | none => some (g.revoke child).1
  | extend parent child expiresAt => some ((g.extend parent child expiresAt).toOption.getD g)
  | revokeAll parent => some (g.revokeAllForParent parent).1

/-- A revocation by another identity than the parent panics if one of the names cannot be cut. -/
def Panics (g : DelegationRegistry) : Action → Prop
  | revoke parent child => ∃ d, g.parentOf child = some d ∧ d.parent ≠ parent ∧
      ¬ ((Piece.clip d.parent).prints = true ∧ (Piece.clip child).prints = true)
  | _ => False

end Action

theorem actionOf_eq_none [Sha3] {record : ValidationRecord}
    (h : ¬ (record.metadata.lookup delegationOpKey).isSome) : actionOf record = none := by
  have hnone : record.metadata.lookup delegationOpKey = none := Option.not_isSome_iff_eq_none.mp h
  simp [actionOf, extractDelegation, extractRevokeAll, metaStr, hnone]

/-- A refusal to revoke panics if its text cannot be formatted. -/
theorem isErr_refusal (parent child : Str) :
    (fail (.wire [.text "only parent ", .clip parent, .text " can revoke delegation for ",
      .clip child])).isErr = true ↔
      (Piece.clip parent).prints = true ∧ (Piece.clip child).prints = true := by
  have hall : ∀ m, (fail (.wire m)).isErr = true ↔ m.all Piece.prints = true := by
    intro m
    unfold fail
    split
    · next h => exact iff_of_true rfl h
    · next h => exact iff_of_false Bool.false_ne_true h
  rw [hall, List.all_cons, List.all_cons, List.all_cons, List.all_cons, List.all_nil]
  simp [Piece.prints]

/-- **A record is applied by what it asks for.** -/
theorem processRecord_eq [Sha3] (g : DelegationRegistry) (record : ValidationRecord) :
    processRecord g record = (actionOf record).elim (some g) (Action.perform g) := by
  unfold processRecord
  split
  · unfold applyDelegation actionOf
    rcases extractDelegation record with e | _ | delegation
    · rfl
    · rcases extractRevokeAll record with e | _ | parsed <;> rfl
    · dsimp only
      cases delegation.op with
      | authorize => rfl
      | revoke =>
        dsimp only [Option.elim_some, Action.perform]
        cases g.parentOf delegation.child with
        | none => rfl
        | some d =>
          dsimp only
          by_cases hd : d.parent ≠ creatorIdentityHash record
          · rw [if_pos hd, if_pos hd]
            exact if_congr (isErr_refusal _ _) rfl rfl
          · rw [if_neg hd, if_neg hd]
      | extend =>
        dsimp only
        cases extractExpiresAt record with
        | none => rfl
        | some e =>
          dsimp only [Option.map_some, Option.elim_some, Action.perform]
          cases g.extend (creatorIdentityHash record) delegation.child e <;> rfl
      | revokeAll => rfl
  · next h =>
    rw [actionOf_eq_none h]
    rfl

/-! ### Both directions -/

/-- The children of a parent are those that have it as their parent. -/
def Mirrored (g : DelegationRegistry) : Prop :=
  ∀ p c, g.children.Rel p c ↔ ∃ d, g.parentOf c = some d ∧ d.parent = p

namespace DelegationRegistry

variable {g : DelegationRegistry} {p c child : Str}

theorem mirrored_new : Mirrored new := fun p c =>
  iff_of_false (Table.rel_empty p c) fun ⟨_, h, _⟩ => Option.some_ne_none _ h.symm

theorem parentOf_revoke (g : DelegationRegistry) (child c : Str) :
    (g.revoke child).1.parentOf c = if c = child then none else g.parentOf c := by
  unfold revoke parentOf
  cases h : g.delegations.lookup child with
  | none =>
    by_cases hc : c = child
    · rw [if_pos hc, hc]
      exact h
    · rw [if_neg hc]
  | some d => exact Table.lookup_erase_eq _ _ _

theorem rel_revoke (hg : Mirrored g) (child : Str) :
    (g.revoke child).1.children.Rel p c ↔ g.children.Rel p c ∧ c ≠ child := by
  unfold revoke
  cases h : g.delegations.lookup child with
  | none =>
    refine ⟨fun hrel => ⟨hrel, ?_⟩, And.left⟩
    rintro rfl
    obtain ⟨d, hd, -⟩ := (hg p c).mp hrel
    exact Option.some_ne_none d (hd.symm.trans h)
  | some d =>
    rw [Table.rel_unlink]
    refine and_congr_right fun hrel => not_congr ⟨And.right, ?_⟩
    rintro rfl
    -- the child has one parent
    obtain ⟨d', hd', rfl⟩ := (hg p c).mp hrel
    rw [parentOf, h, Option.some.injEq] at hd'
    rw [hd']
    exact ⟨rfl, rfl⟩

theorem mirrored_revoke (hg : Mirrored g) (child : Str) : Mirrored (g.revoke child).1 := by
  intro p c
  rw [rel_revoke hg, hg, parentOf_revoke]
  by_cases hc : c = child
  · simp [hc]
  · simp [hc]

theorem parentOf_authorize (g : DelegationRegistry) (parent child : Str) (scope : DelegationScope)
    (t : F64) (e : Option F64) (c : Str) :
    (g.authorizeWithExpiry parent child scope t e).parentOf c =
      if c = child then some ⟨parent, scope, t, e⟩ else g.parentOf c := by
  refine (Table.lookup_insert_eq _ _ _ _).trans ?_
  by_cases hc : c = child
  · rw [if_pos hc, if_pos hc]
  · rw [if_neg hc, if_neg hc]
    exact (parentOf_revoke g child c).trans (if_neg hc)

theorem rel_authorize (hg : Mirrored g) (parent child : Str) (scope : DelegationScope) (t : F64)
    (e : Option F64) : (g.authorizeWithExpiry parent child scope t e).children.Rel p c ↔
      (p = parent ∧ c = child) ∨ g.children.Rel p c ∧ c ≠ child := by
  unfold authorizeWithExpiry
  rw [Table.rel_link, rel_revoke hg]

theorem mirrored_authorize (hg : Mirrored g) (parent child : Str) (scope : DelegationScope) (t : F64)
    (e : Option F64) : Mirrored (g.authorizeWithExpiry parent child scope t e) := by
  intro p c
  rw [rel_authorize hg, hg, parentOf_authorize]
  by_cases hc : c = child
  · simp [hc, eq_comm]
  · simp [hc]

theorem parentOf_foldl_revoke (l : List Str) (g : DelegationRegistry) (c : Str) :
    (l.foldl (fun g child => (g.revoke child).1) g).parentOf c =
      if c ∈ l then none else g.parentOf c := by
  induction l generalizing g with
  | nil => simp
  | cons child l ih =>
    rw [List.foldl_cons, ih, parentOf_revoke]
    by_cases hl : c ∈ l
    · rw [if_pos hl, if_pos (List.mem_cons_of_mem _ hl)]
    · simp [hl]

theorem mirrored_pruneExpired (hg : Mirrored g) (now : F64) : Mirrored (g.pruneExpired now).1 :=
  Runs.forall_state (J := Mirrored) (fun _ child h => mirrored_revoke h child) hg _

theorem parentOf_pruneExpired (g : DelegationRegistry) (now : F64) (c : Str) :
    (g.pruneExpired now).1.parentOf c =
      (g.parentOf c).filter fun d => !d.expiresAt.any fun exp => exp.lt now := by
  refine (parentOf_foldl_revoke _ _ _).trans ?_
  cases h : g.parentOf c with
  | none => exact ite_self none
  | some d =>
    have hkey : c ∈ g.delegations.keys :=
      AList.mem_keys.mp (AList.lookup_isSome.mp (Option.isSome_of_mem h))
    rw [if_congr (List.mem_filter.trans (and_iff_right hkey)) rfl rfl,
      show g.delegations.lookup c = some d from h, Option.any_some, Option.filter_some]
    cases d.expiresAt.any fun exp => exp.lt now <;> rfl

theorem lookup_foldl_erase (l : List Str) (t : Table Str ActiveDelegation) (c : Str) :
    (l.foldl (fun t child => t.erase child) t).lookup c = if c ∈ l then none else t.lookup c := by
  induction l generalizing t with
  | nil => simp
  | cons child l ih =>
    rw [List.foldl_cons, ih, Table.lookup_erase_eq]
    by_cases hl : c ∈ l
    · rw [if_pos hl, if_pos (List.mem_cons_of_mem _ hl)]
    · simp [hl]

theorem parentOf_revokeAll (hg : Mirrored g) (parent c : Str) :
    (g.revokeAllForParent parent).1.parentOf c = (g.parentOf c).filter (·.parent ≠ parent) := by
  have hrel := hg parent c
  unfold revokeAllForParent
  cases h : g.children.lookup parent with
  | none =>
    rw [iff_false_left (Table.not_rel_of_lookup h c)] at hrel
    have hkept : ∀ d, g.parentOf c = some d → d.parent ≠ parent := fun d hd hp => hrel ⟨d, hd, hp⟩
    dsimp only
    cases hd : g.parentOf c with
    | none => rfl
    | some d => rw [Option.filter_some, if_pos (decide_eq_true (hkept d hd))]
  | some s =>
    rw [Table.rel_of_lookup h, ← @SetWalk.mem_walk Str SetWalk.sorted] at hrel
    refine (lookup_foldl_erase _ _ _).trans ?_
    rw [if_congr hrel rfl rfl]
    change ite _ none (g.parentOf c) = _
    cases hd : g.parentOf c with
    | none => simp
    | some d => by_cases hp : d.parent = parent <;> simp [hp, Option.filter_some]

theorem rel_revokeAll (g : DelegationRegistry) (parent : Str) :
    (g.revokeAllForParent parent).1.children.Rel p c ↔ p ≠ parent ∧ g.children.Rel p c := by
  unfold revokeAllForParent
  cases h : g.children.lookup parent with
  | none =>
    refine ⟨fun hrel => ⟨?_, hrel⟩, And.right⟩
    rintro rfl
    exact Table.not_rel_of_lookup h c hrel
  | some s => exact Table.rel_erase

theorem mirrored_revokeAll (hg : Mirrored g) (parent : Str) :
    Mirrored (g.revokeAllForParent parent).1 := by
  intro p c
  rw [rel_revokeAll, hg, parentOf_revokeAll hg]
  cases g.parentOf c with
  | none => simp
  | some d => by_cases hp : d.parent = parent <;> grind

theorem parentOf_extend (g : DelegationRegistry) (parent child : Str) (e : F64) (c : Str) :
    ((g.extend parent child e).toOption.getD g).parentOf c =
      if c = child then
        (g.parentOf c).map fun d => if d.parent = parent then { d with expiresAt := some e } else d
      else g.parentOf c := by
  by_cases hc : c = child
  · subst hc
    rw [if_pos rfl]
    unfold extend parentOf
    split
    · next d hd =>
      rw [hd, Option.map_some]
      split
      · exact AList.lookup_insert _
      · exact hd
    · next hd =>
      rw [hd]
      exact hd
  · rw [if_neg hc]
    unfold extend
    split
    · split
      · exact AList.lookup_insert_ne hc
      · rfl
    · rfl

theorem children_extend (g : DelegationRegistry) (parent child : Str) (e : F64) :
    ((g.extend parent child e).toOption.getD g).children = g.children := by
  unfold extend
  split
  · split <;> rfl
  · rfl

theorem mirrored_extend (hg : Mirrored g) (parent child : Str) (e : F64) :
    Mirrored ((g.extend parent child e).toOption.getD g) := by
  intro p c
  rw [children_extend, hg, parentOf_extend]
  by_cases hc : c = child
  · -- the parent stays the same
    rw [if_pos hc]
    cases g.parentOf c with
    | none => rfl
    | some d => by_cases hd : d.parent = parent <;> simp [hd]
  · rw [if_neg hc]

end DelegationRegistry

/-! ### The effect of an action -/

namespace Action

open DelegationRegistry

variable {g g' : DelegationRegistry} {a : Action}

/-- A revocation is by the parent of the child, if it has one, or it is refused. -/
theorem perform_revoke_cases (g : DelegationRegistry) (parent child : Str) :
    (∃ d, g.parentOf child = some d ∧ d.parent ≠ parent ∧ (revoke parent child).perform g =
      if (Piece.clip d.parent).prints ∧ (Piece.clip child).prints then some g else none) ∨
    (∀ d, g.parentOf child = some d → d.parent = parent) ∧
      (revoke parent child).perform g = some (g.revoke child).1 := by
  cases h : g.parentOf child with
  | none =>
    refine .inr ⟨fun _ hd => absurd hd.symm (Option.some_ne_none _), ?_⟩
    simp only [perform, h]
  | some d =>
    simp only [perform, h]
    by_cases hd : d.parent = parent
    · exact .inr ⟨fun _ hd' => Option.some.inj hd' ▸ hd, if_neg (not_not.mpr hd)⟩
    · exact .inl ⟨d, rfl, hd, if_pos hd⟩

/-- **What panics.** -/
theorem perform_eq_none_iff : a.perform g = none ↔ a.Panics g := by
  cases a with
  | authorize | extend | revokeAll => exact iff_of_false (Option.some_ne_none _) not_false
  | revoke parent child =>
    rw [Panics]
    rcases perform_revoke_cases g parent child with ⟨d, hd, hother, heq⟩ | ⟨hown, heq⟩
    · simp [heq, hd, hother]
    · refine iff_of_false (heq ▸ Option.some_ne_none _) ?_
      rintro ⟨d, hd, hother, -⟩
      exact hother (hown d hd)

/-- **An action keeps the directions together, and has its effect on every child.** -/
theorem perform_spec (hg : Mirrored g) (h : a.perform g = some g') :
    Mirrored g' ∧ ∀ c, g'.parentOf c = a.effect c (g.parentOf c) := by
  cases a with
  | authorize parent child scope created expiresAt =>
    cases h
    exact ⟨mirrored_authorize hg _ _ _ _ _, parentOf_authorize g _ _ _ _ _⟩
  | revokeAll parent =>
    cases h
    exact ⟨mirrored_revokeAll hg parent, parentOf_revokeAll hg parent⟩
  | extend parent child e =>
    cases h
    exact ⟨mirrored_extend hg parent child e, parentOf_extend g parent child e⟩
  | revoke parent child =>
    rcases perform_revoke_cases g parent child with ⟨d, hd, hother, heq⟩ | ⟨hown, heq⟩
    · -- refused
      rw [heq] at h
      split at h
      · cases h
        refine ⟨hg, fun c => ?_⟩
        by_cases hc : c = child
        · rw [effect, if_pos hc, hc, hd, Option.filter_some, if_pos (decide_eq_true hother)]
        · rw [effect, if_neg hc]
      · cases h
    · rw [heq] at h
      cases h
      refine ⟨mirrored_revoke hg child, fun c => ?_⟩
      rw [parentOf_revoke, effect]
      by_cases hc : c = child
      · subst hc
        rw [if_pos rfl, if_pos rfl]
        cases hd : g.parentOf c with
        | none => rfl
        | some d => simp [Option.filter_some, hown d hd]
      · rw [if_neg hc, if_neg hc]

end Action

end ElaraMesh.Delegation
