import ElaraMesh.Mandate.Verdict
import Mathlib.Data.Set.Basic

/-!
# Delegation never widens authority

Only the mandate an act invokes is compared with the act.  Its ancestors authorise the act
as well, since every child grants a part of what its parent grants: the authority of a
mandate is a set of acts, and the sets grow along a chain.

## Main results

* `Narrows.authority_subset` — a narrower mandate authorises no more.
* `evaluateMandate_attenuated` — the chain of a valid act carries the act.
-/

namespace ElaraMesh
namespace Mandate

open Record (Str)

/-- An act, as far as scopes and windows are concerned. -/
structure Act where
  op : Str
  zone : Str
  amount : Option UInt64
  timestampMs : UInt64

def MandateClaim.act (claim : MandateClaim) : Act :=
  ⟨claim.op, claim.zone, claim.amount, claim.actTimestampMs⟩

/-- The acts that a mandate, taken alone, authorises. -/
def MandateRecord.authority (m : MandateRecord) : Set Act :=
  {act | (m.scope.allowsOp act.op = true ∧ m.scope.allowsZone act.zone = true ∧
      m.scope.allowsAmount act.amount = true) ∧
    m.notBeforeMs ≤ act.timestampMs ∧ act.timestampMs ≤ m.notAfterMs}

theorem Narrows.authority_subset {child parent : MandateRecord} (h : Narrows child parent) :
    child.authority ⊆ parent.authority := by
  rintro act ⟨⟨hop, hzone, hamount⟩, hstart, hend⟩
  refine ⟨⟨?_, ?_, ?_⟩, UInt64.le_trans h.starts hstart, UInt64.le_trans hend h.ends⟩
  · exact allowsOp_of_scopeWithin h.scope hop
  · exact allowsZone_of_scopeWithin h.scope hzone
  · exact allowsAmount_of_scopeWithin h.scope hamount

/-- The first mandate of a chain authorises no more than any other. -/
theorem authority_subset_of_linked {resolver : MandateResolver} {leaf : Str × MandateRecord}
    {rest : Lineage} (h : (leaf :: rest).IsChain (Delegates resolver)) :
    ∀ hop ∈ leaf :: rest, leaf.2.authority ⊆ hop.2.authority := by
  induction rest generalizing leaf with
  | nil =>
    intro hop hhop
    rw [List.mem_singleton.mp hhop]
  | cons parent rest ih =>
    obtain ⟨hparent, hrest⟩ := List.isChain_cons_cons.mp h
    intro hop hhop
    rcases List.mem_cons.mp hhop with rfl | hhop
    · exact subset_rfl
    · exact hparent.narrows.authority_subset.trans (ih hrest hop hhop)

/-- Every mandate behind the first one was looked up. -/
theorem resolved_of_linked {resolver : MandateResolver} {leaf : Str × MandateRecord}
    {rest : Lineage} (h : (leaf :: rest).IsChain (Delegates resolver)) :
    ∀ hop ∈ rest, resolver.mandate hop.1 = some hop.2 := by
  induction rest generalizing leaf with
  | nil => exact fun hop hhop => absurd hhop List.not_mem_nil
  | cons parent rest ih =>
    obtain ⟨hparent, hrest⟩ := List.isChain_cons_cons.mp h
    intro hop hhop
    rcases List.mem_cons.mp hhop with rfl | hhop
    · exact hparent.resolved
    · exact ih hrest hop hhop

/-- A chain, from the mandate that is invoked up to a root, that carries an act. -/
structure Attenuated (claim : MandateClaim) (resolver : MandateResolver) (chain : Lineage) :
    Prop where
  /-- The chain begins with the mandate that is invoked, whose agent signed the act. -/
  signer : ∃ leaf, chain.head? = some (claim.mandateRef, leaf) ∧
    leaf.agentIdentityHash.eqIgnoreAsciiCase claim.signerIdentityHash = true
  resolved : ∀ hop ∈ chain, resolver.mandate hop.1 = some hop.2
  authorises : ∀ hop ∈ chain, claim.act ∈ hop.2.authority
  /-- The principal of a child is the agent of its parent. -/
  linked : chain.IsChain fun child parent => child.2.parentMandateId = some parent.1 ∧
    child.2.principalIdentityHash.eqIgnoreAsciiCase parent.2.agentIdentityHash = true
  rooted : ∃ root, chain.getLast? = some root ∧ root.2.parentMandateId = none
  /-- A mandate that its principal revoked was revoked after the act. -/
  unrevoked : ∀ hop ∈ chain, ∀ revokedAt,
    resolver.revocation hop.1 hop.2.principalIdentityHash = some revokedAt →
      claim.actTimestampMs < revokedAt
  deep : DeepEnough chain

/-- The chain of a valid act carries the act, whatever mandates and revocations there are. -/
theorem evaluateMandate_attenuated (claim : MandateClaim) (resolver : MandateResolver)
    (h : evaluateMandate claim resolver = .valid) :
    Attenuated claim resolver (evaluateMandateInnerWithChain claim resolver true).2 := by
  obtain ⟨leaf, hpassed⟩ := passed_of_valid h
  obtain ⟨rest, hchain⟩ := hpassed.head
  obtain ⟨hwalked, -, hroot⟩ := walkChain_ok hpassed.walked (Walked.singleton _)
  have hleaf := hpassed.leaf_valid
  have hunrevoked := hpassed.unrevoked
  rw [hchain] at hwalked hroot hleaf hunrevoked ⊢
  obtain ⟨hend, hstart, hscope⟩ := leafVerdict_eq_valid_iff.mp hleaf
  have hact : claim.act ∈ leaf.authority := ⟨hscope (Or.inl rfl), hstart, hend⟩
  constructor
  · exact ⟨leaf, rfl, hpassed.signer⟩
  · intro hop hhop
    rcases List.mem_cons.mp hhop with rfl | hhop
    · exact hpassed.resolved
    · exact resolved_of_linked hwalked.linked hop hhop
  · exact fun hop hhop => authority_subset_of_linked hwalked.linked hop hhop hact
  · exact hwalked.linked.imp fun child parent hlink => ⟨hlink.parent_id, hlink.principal⟩
  · exact hroot
  · intro hop hhop revokedAt hrevoked
    have hhop' := List.any_eq_false.mp hunrevoked hop hhop
    rw [revokedBy, hrevoked, Option.any_some, decide_eq_true_eq, UInt64.not_le] at hhop'
    exact hhop'
  · exact hwalked.deep

/-! ### A chain of two -/

section Sample

/-- Sixty-four equal digits. -/
def sampleIdentity (digit : UInt8) (h : digit < 0x80) : Str where
  bytes := List.replicate 64 digit
  valid := Record.utf8Error_of_ascii (fun _ hb => List.eq_of_mem_replicate hb ▸ h) 0

/-- A root for all transfers in a zone, which may be delegated once. -/
def sampleRoot : MandateRecord where
  version := 1
  networkId := Str.text "testnet"
  principalIdentityHash := sampleIdentity 0x61 (by decide)
  agentIdentityHash := sampleIdentity 0x62 (by decide)
  scope := ⟨[Str.text "transfer"], [Str.text "zone/A"], some 100⟩
  notBeforeMs := 0
  notAfterMs := 1000
  subDelegationMaxDepth := 1
  parentMandateId := none
  nonce := Str.empty

def sampleChild : MandateRecord :=
  { sampleRoot with
    principalIdentityHash := sampleIdentity 0x42 (by decide)
    agentIdentityHash := sampleIdentity 0x63 (by decide)
    scope := ⟨[Str.text "transfer"], [Str.text "zone/A/0"], some 10⟩
    notAfterMs := 500
    parentMandateId := some (Str.text "root") }

/-- The two mandates, the root revoked after 600 milliseconds. -/
def sampleResolver : MandateResolver where
  mandate id :=
    if id = Str.text "root" then some sampleRoot
    else if id = Str.text "child" then some sampleChild
    else none
  revocation id _ := if id = Str.text "root" then some 600 else none

/-- An act of the delegate after 400 milliseconds. -/
def sampleClaim : MandateClaim where
  signerIdentityHash := sampleIdentity 0x63 (by decide)
  actTimestampMs := 400
  mandateRef := Str.text "child"
  op := Str.text "transfer"
  zone := Str.text "zone/A/0/1"
  amount := some 7
  networkId := Str.text "testnet"

theorem evaluateMandate_attenuated_delegated :
    (evaluateMandateInnerWithChain sampleClaim sampleResolver true).2.length = 2 ∧
      Attenuated sampleClaim sampleResolver
        (evaluateMandateInnerWithChain sampleClaim sampleResolver true).2 :=
  ⟨by decide +kernel, evaluateMandate_attenuated sampleClaim sampleResolver (by decide +kernel)⟩

end Sample

end Mandate
end ElaraMesh
