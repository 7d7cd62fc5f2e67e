import ElaraMesh.Mandate.Record
import Mathlib.Data.List.Chain

/-!
# The verdict on an act under a mandate

An act names the mandate it invokes.  The verifier resolves the mandate, walks from it up
to a root, asks for revocations of each mandate on the way, and compares the act with the
first mandate only.  Pointers to parents are not trusted: the walk is cut off at a depth.

## Main results

* `walkChain_ok` — what holds of a chain that is returned.
-/

namespace ElaraMesh
namespace Mandate

open Record (Str)

/-- The verdict on an act that refers to a mandate. -/
inductive MandateFlag where
  | valid
  | noChain
  | lapsed
  | postRevocation
  | overScope
  | agentMismatch
  | malformed
  | notYetValid
  | unverifiedChain
  | depthExceeded
  | scopeBroadened
  | unauthorizedRevocation
  deriving DecidableEq

/-- Read access to mandates and revocations. -/
structure MandateResolver where
  mandate : Str → Option MandateRecord
  /-- The earliest revocation of a mandate by an identity, in milliseconds. -/
  revocation : Str → Str → Option UInt64

structure MandateClaim where
  signerIdentityHash : Str
  actTimestampMs : UInt64
  mandateRef : Str
  op : Str
  zone : Str
  amount : Option UInt64
  networkId : Str

/-- The longest way that is walked. -/
def mandateMaxChainDepth : ℕ := 16

/-- Mandates from the one an act invokes up to the root, each with its id. -/
abbrev Lineage := List (Str × MandateRecord)

/-! ### The walk -/

/-- What is wrong with a parent at some distance from the mandate that was invoked. -/
def hopFault (networkId : Str) (distance : ℕ) (current parent : MandateRecord) :
    Option MandateFlag :=
  if ¬ parent.isWellFormed ∨ ¬ parent.networkId.eqIgnoreAsciiCase networkId then
    some .unverifiedChain
  else if ¬ current.principalIdentityHash.eqIgnoreAsciiCase parent.agentIdentityHash then
    some .unverifiedChain
  else if parent.subDelegationMaxDepth.toNat < distance then some .depthExceeded
  else if ¬ scopeWithin current.scope parent.scope ∨ current.notBeforeMs < parent.notBeforeMs ∨
      parent.notAfterMs < current.notAfterMs then
    some .scopeBroadened
  else none

/-- Walk on from the last mandate of the chain until there is no parent. -/
def walkChain (resolver : MandateResolver) (networkId : Str) (chain : Lineage) :
    Except MandateFlag Lineage :=
  match chain.getLast? with
  | none => .error .unverifiedChain
  | some (_, current) =>
    match current.parentMandateId with
    | none => .ok chain
    | some parentId =>
      -- the bound comes before the lookup: the pointers may run in a circle
      if mandateMaxChainDepth < chain.length then .error .depthExceeded
      else
        match resolver.mandate parentId with
        | none => .error .unverifiedChain
        | some parent =>
          match hopFault networkId chain.length current parent with
          | some flag => .error flag
          | none => walkChain resolver networkId (chain ++ [(parentId, parent)])
termination_by mandateMaxChainDepth + 1 - chain.length
decreasing_by
  rw [List.length_append, List.length_singleton]
  omega

/-! ### The verdict -/

/-- Was the mandate revoked by its principal, at or before the act? -/
def revokedBy (resolver : MandateResolver) (actTimestampMs : UInt64) (hop : Str × MandateRecord) :
    Bool :=
  (resolver.revocation hop.1 hop.2.principalIdentityHash).any (· ≤ actTimestampMs)

/-- The act against the mandate it invokes. -/
def leafVerdict (claim : MandateClaim) (leaf : MandateRecord) (enforceNonwildcardScope : Bool) :
    MandateFlag :=
  if leaf.notAfterMs < claim.actTimestampMs then .lapsed
  else if claim.actTimestampMs < leaf.notBeforeMs then .notYetValid
  else if (enforceNonwildcardScope ∨ leaf.scope.isWildcard) ∧ (¬ leaf.scope.allowsOp claim.op ∨
      ¬ leaf.scope.allowsZone claim.zone ∨ ¬ leaf.scope.allowsAmount claim.amount) then
    .overScope
  else .valid

/-- The act against a chain: revocations of every mandate, and the first mandate. -/
def chainVerdict (claim : MandateClaim) (resolver : MandateResolver) (enforceNonwildcardScope : Bool)
    (m : MandateRecord) (chain : Lineage) : MandateFlag × Lineage :=
  if chain.any (revokedBy resolver claim.actTimestampMs) then (.postRevocation, [])
  else
    -- the first of the chain is the mandate it started from
    match leafVerdict claim (chain.headD (claim.mandateRef, m)).2 enforceNonwildcardScope with
    | .valid => (.valid, chain)
    | flag => (flag, [])

/-- The verdict, and the chain if the act is valid. -/
def evaluateMandateInnerWithChain (claim : MandateClaim) (resolver : MandateResolver)
    (enforceNonwildcardScope : Bool) : MandateFlag × Lineage :=
  match resolver.mandate claim.mandateRef with
  | none => (.noChain, [])
  | some m =>
    if ¬ m.isWellFormed ∨ ¬ m.networkId.eqIgnoreAsciiCase claim.networkId then (.malformed, [])
    else if ¬ m.agentIdentityHash.eqIgnoreAsciiCase claim.signerIdentityHash then
      (.agentMismatch, [])
    else
      match walkChain resolver claim.networkId [(claim.mandateRef, m)] with
      | .error flag => (flag, [])
      | .ok chain => chainVerdict claim resolver enforceNonwildcardScope m chain

/-- The verdict with the scope of the mandate enforced. -/
def evaluateMandate (claim : MandateClaim) (resolver : MandateResolver) : MandateFlag :=
  (evaluateMandateInnerWithChain claim resolver true).1

/-! ### What the walk checks -/

/-- The child grants no more, and no longer, than the parent. -/
structure Narrows (child parent : MandateRecord) : Prop where
  scope : scopeWithin child.scope parent.scope = true
  starts : parent.notBeforeMs ≤ child.notBeforeMs
  ends : child.notAfterMs ≤ parent.notAfterMs

/-- The child is delegated from the parent, as the resolver knows it. -/
structure Delegates (resolver : MandateResolver) (child parent : Str × MandateRecord) : Prop where
  parent_id : child.2.parentMandateId = some parent.1
  resolved : resolver.mandate parent.1 = some parent.2
  wellFormed : parent.2.isWellFormed = true
  principal : child.2.principalIdentityHash.eqIgnoreAsciiCase parent.2.agentIdentityHash = true
  narrows : Narrows child.2 parent.2

/-- Every mandate may be delegated as often as it was. -/
def DeepEnough (chain : Lineage) : Prop :=
  ∀ (d : ℕ) (hop : Str × MandateRecord), chain[d]? = some hop → d ≤ hop.2.subDelegationMaxDepth.toNat

variable {networkId : Str} {claim : MandateClaim} {enforce : Bool} {resolver : MandateResolver}

theorem hopFault_eq_none_iff {distance : ℕ} {current parent : MandateRecord} :
    hopFault networkId distance current parent = none ↔
      (parent.isWellFormed = true ∧ parent.networkId.eqIgnoreAsciiCase networkId = true) ∧
      current.principalIdentityHash.eqIgnoreAsciiCase parent.agentIdentityHash = true ∧
      distance ≤ parent.subDelegationMaxDepth.toNat ∧ Narrows current parent := by
  have hnarrows : Narrows current parent ↔ ¬ (¬ scopeWithin current.scope parent.scope ∨
      current.notBeforeMs < parent.notBeforeMs ∨ parent.notAfterMs < current.notAfterMs) := by
    rw [not_or, not_or, not_not, UInt64.not_lt, UInt64.not_lt]
    exact ⟨fun h => ⟨h.scope, h.starts, h.ends⟩, fun h => ⟨h.1, h.2.1, h.2.2⟩⟩
  rw [hnarrows, hopFault]
  grind

section Walk

variable {resolver : MandateResolver} {networkId : Str}

/-- The chain is delegated hop by hop, and no deeper than its mandates allow. -/
structure Walked (resolver : MandateResolver) (chain : Lineage) : Prop where
  linked : chain.IsChain (Delegates resolver)
  deep : DeepEnough chain

theorem Walked.singleton (hop : Str × MandateRecord) : Walked resolver [hop] where
  linked := List.IsChain.singleton hop
  deep := by
    intro d h hd
    cases d with
    | zero => exact Nat.zero_le _
    | succ d => cases hd

theorem Walked.concat {chain : Lineage} {hop parent : Str × MandateRecord}
    (h : Walked resolver chain) (hlast : chain.getLast? = some hop)
    (hparent : Delegates resolver hop parent)
    (hdepth : chain.length ≤ parent.2.subDelegationMaxDepth.toNat) :
    Walked resolver (chain ++ [parent]) where
  linked := by
    refine List.isChain_append.mpr ⟨h.linked, List.IsChain.singleton parent, ?_⟩
    intro x hx y hy
    rw [Option.mem_def.mp hx] at hlast
    cases hlast
    cases Option.mem_def.mp hy
    exact hparent
  deep := by
    intro d p hd
    rw [List.getElem?_append] at hd
    split at hd
    · exact h.deep d p hd
    · have hlen := (List.getElem?_eq_some_iff.mp hd).1
      rw [List.length_singleton] at hlen
      have hd0 : d - chain.length = 0 := by omega
      rw [hd0] at hd
      cases hd
      omega

/-- **What holds of a chain that is returned**: it goes on from the given one, every hop
passed the checks, and the last mandate is a root. -/
theorem walkChain_ok {chain result : Lineage} (h : walkChain resolver networkId chain = .ok result)
    (hchain : Walked resolver chain) : Walked resolver result ∧ chain <+: result ∧
      ∃ root, result.getLast? = some root ∧ root.2.parentMandateId = none := by
  fun_induction walkChain resolver networkId chain with
  | case2 chain hid current hlast hroot =>
    cases h
    exact ⟨hchain, List.prefix_rfl, _, hlast, hroot⟩
  | case6 chain hid current hlast parentId hparent hlength parent hresolved hfault ih =>
    obtain ⟨hwell, hprincipal, hdepth, hnarrows⟩ := hopFault_eq_none_iff.mp hfault
    have hdelegates : Delegates resolver (hid, current) (parentId, parent) :=
      ⟨hparent, hresolved, hwell.1, hprincipal, hnarrows⟩
    obtain ⟨hwalked, hpre, hroot⟩ := ih h (hchain.concat hlast hdelegates hdepth)
    exact ⟨hwalked, (List.prefix_append _ _).trans hpre, hroot⟩
  | case1 | case3 | case4 | case5 => cases h

end Walk

/-! ### What a valid act has passed -/

theorem leafVerdict_eq_valid_iff {leaf : MandateRecord} :
    leafVerdict claim leaf enforce = .valid ↔
      claim.actTimestampMs ≤ leaf.notAfterMs ∧ leaf.notBeforeMs ≤ claim.actTimestampMs ∧
      (enforce = true ∨ leaf.scope.isWildcard = true → leaf.scope.allowsOp claim.op = true ∧
        leaf.scope.allowsZone claim.zone = true ∧
        leaf.scope.allowsAmount claim.amount = true) := by
  rw [← UInt64.not_lt, ← UInt64.not_lt, leafVerdict]
  grind

/-- All that was checked of a valid act, with the chain that is returned. -/
structure Passed (claim : MandateClaim) (resolver : MandateResolver) (enforce : Bool)
    (leaf : MandateRecord) (chain : Lineage) : Prop where
  resolved : resolver.mandate claim.mandateRef = some leaf
  wellFormed : leaf.isWellFormed = true
  signer : leaf.agentIdentityHash.eqIgnoreAsciiCase claim.signerIdentityHash = true
  walked : walkChain resolver claim.networkId [(claim.mandateRef, leaf)] = .ok chain
  unrevoked : chain.any (revokedBy resolver claim.actTimestampMs) = false
  leaf_valid : leafVerdict claim (chain.headD (claim.mandateRef, leaf)).2 enforce = .valid

theorem hopFault_ne_valid {distance : ℕ} {current parent : MandateRecord} :
    hopFault networkId distance current parent ≠ some .valid := by
  unfold hopFault
  grind

theorem walkChain_ne_valid (chain : Lineage) :
    walkChain resolver networkId chain ≠ .error .valid := by
  fun_induction walkChain resolver networkId chain with
  | case5 chain hid current hlast parentId hparent hlength parent hresolved flag hfault =>
    rintro ⟨⟩
    exact hopFault_ne_valid hfault
  | case6 chain hid current hlast parentId hparent hlength parent hresolved hfault ih => exact ih
  | case1 | case2 | case3 | case4 => rintro ⟨⟩

theorem chainVerdict_valid {m : MandateRecord} {chain : Lineage}
    (h : (chainVerdict claim resolver enforce m chain).1 = .valid) :
    (chainVerdict claim resolver enforce m chain).2 = chain ∧
      chain.any (revokedBy resolver claim.actTimestampMs) = false ∧
      leafVerdict claim (chain.headD (claim.mandateRef, m)).2 enforce = .valid := by
  unfold chainVerdict at h ⊢
  split at h
  · cases h
  · next hrevoked =>
    rw [if_neg hrevoked]
    cases hleaf : leafVerdict claim (chain.headD (claim.mandateRef, m)).2 enforce with
    | valid => exact ⟨rfl, Bool.eq_false_iff.mpr hrevoked, rfl⟩
    | _ =>
      rw [hleaf] at h
      cases h

theorem passed_of_valid (h : (evaluateMandateInnerWithChain claim resolver enforce).1 = .valid) :
    ∃ leaf, Passed claim resolver enforce leaf
      (evaluateMandateInnerWithChain claim resolver enforce).2 := by
  unfold evaluateMandateInnerWithChain at h ⊢
  split at h
  · cases h
  · next leaf hresolved =>
    split at h
    · cases h
    · next hwell =>
      rw [not_or, not_not, not_not] at hwell
      split at h
      · cases h
      · next hagent =>
        rw [not_not] at hagent
        rw [if_neg (by simp [hwell]), if_neg (by simp [hagent])]
        split at h
        · next hwalk =>
          cases h
          exact absurd hwalk (walkChain_ne_valid _)
        · next chain hwalk =>
          obtain ⟨hchain, hunrevoked, hleaf⟩ := chainVerdict_valid h
          refine ⟨leaf, hresolved, hwell.1, hagent, ?_, ?_, ?_⟩
          all_goals rw [hchain]
          exacts [hwalk, hunrevoked, hleaf]

/-- The first of a walked chain is the mandate that was invoked. -/
theorem Passed.head
    {leaf : MandateRecord} {chain : Lineage} (h : Passed claim resolver enforce leaf chain) :
    ∃ rest, chain = (claim.mandateRef, leaf) :: rest := by
  obtain ⟨-, ⟨rest, hrest⟩, -⟩ := walkChain_ok h.walked (Walked.singleton _)
  exact ⟨rest, hrest.symm⟩

end Mandate
end ElaraMesh
