import ElaraMesh.Mandate.Verdict
import Mathlib.Data.List.Sort

/-!
# Mandate ids as content addresses

The id of a mandate is the hash of its canonical bytes, in which the operations and the zones of
the scope are sorted and stand once.  So the id says which terms were granted, the two lists taken
as sets, and nothing about the order or the repetitions in which they were written down.

## Main results

* `sortedDeduped_eq_iff` — the canonical list is that of a set.
* `canonicalized_eq_iff` — the canonical form is that of the terms.
* `mandateId_eq_iff` — mandates share an id exactly if they share the canonical form.
-/

namespace ElaraMesh
namespace Mandate

open Record (Str sha3Hex)
open Smt (Sha3 sha3_256)

/-! ### Lists in order, without repetitions -/

section Sorted

variable {α : Type} [DecidableEq α]

theorem mem_destutter'_ne {a x : α} {l : List α} :
    x ∈ l.destutter' (· ≠ ·) a ↔ x ∈ a :: l := by
  induction l generalizing a with
  | nil => simp
  | cons b l ih =>
    by_cases hab : a = b
    · subst hab
      rw [List.destutter'_cons_neg _ (not_not.mpr rfl), ih]
      simp
    · rw [List.destutter'_cons_pos _ hab, List.mem_cons, ih, List.mem_cons (b := a)]

theorem mem_destutter_ne {x : α} {l : List α} : x ∈ l.destutter (· ≠ ·) ↔ x ∈ l := by
  cases l with
  | nil => rfl
  | cons a l => exact mem_destutter'_ne

/-- In a list in order, repetitions are neighbours. -/
theorem pairwise_lt_destutter' [PartialOrder α] {a : α} {l : List α} (h : (a :: l).Pairwise (· ≤ ·)) :
    (l.destutter' (· ≠ ·) a).Pairwise (· < ·) := by
  induction l generalizing a with
  | nil => simp
  | cons b l ih =>
    obtain ⟨ha, hl⟩ := List.pairwise_cons.mp h
    by_cases hab : a = b
    · subst hab
      rw [List.destutter'_cons_neg _ (not_not.mpr rfl)]
      exact ih hl
    · rw [List.destutter'_cons_pos _ hab]
      refine List.pairwise_cons.mpr ⟨?_, ih hl⟩
      intro x hx
      -- what is kept further on is not before `b`
      have hbx : b ≤ x := by
        rcases List.mem_cons.mp (mem_destutter'_ne.mp hx) with rfl | hx
        · exact le_rfl
        · exact (List.pairwise_cons.mp hl).1 x hx
      exact (lt_of_le_of_ne (ha b List.mem_cons_self) hab).trans_le hbx

theorem pairwise_lt_destutter [PartialOrder α] {l : List α} (h : l.Pairwise (· ≤ ·)) :
    (l.destutter (· ≠ ·)).Pairwise (· < ·) := by
  cases l with
  | nil => exact List.Pairwise.nil
  | cons a l => exact pairwise_lt_destutter' h

end Sorted

theorem mem_sortedDeduped {v : List Str} {s : Str} : s ∈ sortedDeduped v ↔ s ∈ v := by
  rw [sortedDeduped, mem_destutter_ne, List.mem_insertionSort]

theorem pairwise_sortedDeduped (v : List Str) : (sortedDeduped v).Pairwise (· < ·) :=
  pairwise_lt_destutter (List.pairwise_insertionSort _ v)

/-- The canonical list is that of the set of the entries. -/
theorem sortedDeduped_eq_iff {v w : List Str} :
    sortedDeduped v = sortedDeduped w ↔ ∀ s, s ∈ v ↔ s ∈ w := by
  constructor
  · intro h s
    rw [← mem_sortedDeduped, h, mem_sortedDeduped]
  · intro h
    refine (pairwise_sortedDeduped v).eq_of_mem_iff (pairwise_sortedDeduped w) ?_
    intro s
    rw [mem_sortedDeduped, mem_sortedDeduped, h s]

/-! ### Terms -/

/-- The same terms, with the operations and the zones as sets. -/
structure SameTerms (m m' : MandateRecord) : Prop where
  version : m.version = m'.version
  networkId : m.networkId = m'.networkId
  principal : m.principalIdentityHash = m'.principalIdentityHash
  agent : m.agentIdentityHash = m'.agentIdentityHash
  ops : ∀ op, op ∈ m.scope.allowedOps ↔ op ∈ m'.scope.allowedOps
  zones : ∀ z, z ∈ m.scope.allowedZones ↔ z ∈ m'.scope.allowedZones
  maxAmount : m.scope.maxAmount = m'.scope.maxAmount
  notBefore : m.notBeforeMs = m'.notBeforeMs
  notAfter : m.notAfterMs = m'.notAfterMs
  depth : m.subDelegationMaxDepth = m'.subDelegationMaxDepth
  parent : m.parentMandateId = m'.parentMandateId
  nonce : m.nonce = m'.nonce

section

variable {m m' : MandateRecord}

theorem canonicalized_eq_iff : m.canonicalized = m'.canonicalized ↔ SameTerms m m' := by
  constructor
  · intro h
    simp only [MandateRecord.canonicalized, MandateRecord.mk.injEq, MandateScope.mk.injEq] at h
    obtain ⟨hversion, hnetwork, hprincipal, hagent, ⟨hops, hzones, hamount⟩, hbefore, hafter, hdepth,
      hparent, hnonce⟩ := h
    exact ⟨hversion, hnetwork, hprincipal, hagent, sortedDeduped_eq_iff.mp hops,
      sortedDeduped_eq_iff.mp hzones, hamount, hbefore, hafter, hdepth, hparent, hnonce⟩
  · intro h
    simp only [MandateRecord.canonicalized, MandateRecord.mk.injEq, MandateScope.mk.injEq]
    exact ⟨h.version, h.networkId, h.principal, h.agent, ⟨sortedDeduped_eq_iff.mpr h.ops,
      sortedDeduped_eq_iff.mpr h.zones, h.maxAmount⟩, h.notBefore, h.notAfter, h.depth, h.parent,
      h.nonce⟩

theorem bytes_eq_of_canonicalized_eq (h : m.canonicalized = m'.canonicalized) :
    m.canonicalSigningBytes = m'.canonicalSigningBytes := by
  simp only [MandateRecord.canonicalized, MandateRecord.mk.injEq, MandateScope.mk.injEq] at h
  obtain ⟨hversion, hnetwork, hprincipal, hagent, ⟨hops, hzones, hamount⟩, hbefore, hafter, hdepth,
    hparent, hnonce⟩ := h
  simp only [MandateRecord.canonicalSigningBytes, hversion, hnetwork, hprincipal, hagent, hops, hzones,
    hamount, hbefore, hafter, hdepth, hparent, hnonce]

/-! ### Authority -/

/-- The mandate by itself allows the act. -/
def MandateRecord.grants (m : MandateRecord) (claim : MandateClaim) : Bool :=
  m.isWellFormed && m.networkId.eqIgnoreAsciiCase claim.networkId &&
    m.agentIdentityHash.eqIgnoreAsciiCase claim.signerIdentityHash &&
    (leafVerdict claim m true = .valid)

namespace SameTerms

theorem isWellFormed_eq (h : SameTerms m m') : m.isWellFormed = m'.isWellFormed := by
  simp only [MandateRecord.isWellFormed, h.version, h.notBefore, h.notAfter, h.principal, h.agent]

theorem allowsOp_eq (h : SameTerms m m') (op : Str) : m.scope.allowsOp op = m'.scope.allowsOp op := by
  rw [Bool.eq_iff_iff, MandateScope.allowsOp_iff, MandateScope.allowsOp_iff]
  simp only [h.ops]

theorem allowsZone_eq (h : SameTerms m m') (zone : Str) :
    m.scope.allowsZone zone = m'.scope.allowsZone zone := by
  rw [Bool.eq_iff_iff, MandateScope.allowsZone_iff, MandateScope.allowsZone_iff]
  simp only [h.zones]

theorem grants_eq (h : SameTerms m m') (claim : MandateClaim) : m.grants claim = m'.grants claim := by
  have hamount : m.scope.allowsAmount claim.amount = m'.scope.allowsAmount claim.amount := by
    simp only [MandateScope.allowsAmount, h.maxAmount]
  have hleaf : leafVerdict claim m true = leafVerdict claim m' true := by
    simp only [leafVerdict, h.notBefore, h.notAfter, h.allowsOp_eq, h.allowsZone_eq, hamount, true_or]
  simp only [MandateRecord.grants, h.isWellFormed_eq, h.networkId, h.agent, hleaf]

end SameTerms

/-- **Mandate ids are content addresses.**  Where the hash tells the two encodings apart, mandates
share an id exactly if they share the canonical form, which is that of their terms; so mandates that
grant different acts have different ids. -/
theorem mandateId_eq_iff [Sha3] (hm : m.Short) (hm' : m'.Short)
    (hsha : Set.InjOn sha3_256 {m.canonicalSigningBytes, m'.canonicalSigningBytes}) :
    (m.mandateId = m'.mandateId ↔ m.canonicalized = m'.canonicalized) ∧
      (m.canonicalized = m'.canonicalized ↔ SameTerms m m') ∧
      ((∃ claim, m.grants claim ≠ m'.grants claim) → m.mandateId ≠ m'.mandateId) := by
  have hiff : m.mandateId = m'.mandateId ↔ m.canonicalized = m'.canonicalized := by
    constructor
    · intro hid
      have hhash : sha3_256 m.canonicalSigningBytes = sha3_256 m'.canonicalSigningBytes :=
        Smt.Bytes32.ext (Str.hex_injective hid)
      have hbytes := hsha (Set.mem_insert _ _) (Set.mem_insert_of_mem _ rfl) hhash
      exact MandateRecord.canonicalized_eq_of_bytes_eq hm hm' hbytes
    · intro h
      exact congrArg sha3Hex (bytes_eq_of_canonicalized_eq h)
  refine ⟨hiff, canonicalized_eq_iff, ?_⟩
  rintro ⟨claim, hclaim⟩ hid
  exact hclaim ((canonicalized_eq_iff.mp (hiff.mp hid)).grants_eq claim)

end

section Sample

attribute [local instance] Smt.guardedSha3

/-- A mandate for some operations, all with the same other terms. -/
def mandateFor (ops : List Str) : MandateRecord where
  version := 1
  networkId := Str.text "testnet"
  principalIdentityHash := Str.text "p"
  agentIdentityHash := Str.text "a"
  scope := ⟨ops, [Str.text "*"], none⟩
  notBeforeMs := 0
  notAfterMs := 1000
  subDelegationMaxDepth := 0
  parentMandateId := none
  nonce := Str.text "00"

theorem short_mandateFor {ops : List Str} (hlength : ops.length < 256 ^ 4)
    (hops : ∀ o ∈ ops, o.len < 256 ^ 4) : (mandateFor ops).Short where
  network := show (Str.text "testnet").len < 256 ^ 4 by decide
  principal := show (Str.text "p").len < 256 ^ 4 by decide
  agent := show (Str.text "a").len < 256 ^ 4 by decide
  ops := hlength
  op := hops
  zones := show 1 < 256 ^ 4 by decide
  zone z hz := by
    rw [List.mem_singleton.mp hz]
    decide
  parent id hid := by cases hid
  nonce := show (Str.text "00").len < 256 ^ 4 by decide

/-- The order of the operations and a repetition do not change the id; another operation does. -/
theorem mandateId_eq_iff_reordered :
    (mandateFor [Str.text "vote", Str.text "send", Str.text "vote"]).mandateId =
      (mandateFor [Str.text "send", Str.text "vote"]).mandateId ∧
    (mandateFor [Str.text "vote"]).mandateId ≠ (mandateFor [Str.text "send"]).mandateId := by
  constructor
  · have hterms : SameTerms (mandateFor [Str.text "vote", Str.text "send", Str.text "vote"])
        (mandateFor [Str.text "send", Str.text "vote"]) :=
      ⟨rfl, rfl, rfl, rfl, by simp [mandateFor, or_comm, or_left_comm], fun _ => Iff.rfl, rfl, rfl,
        rfl, rfl, rfl, rfl⟩
    have hform := canonicalized_eq_iff.mpr hterms
    have hbytes := bytes_eq_of_canonicalized_eq hform
    refine (mandateId_eq_iff (short_mandateFor (by decide) (by decide))
      (short_mandateFor (by decide) (by decide)) ?_).1.mpr hform
    rw [hbytes, Set.pair_eq_singleton]
    exact Set.injOn_singleton _ _
  · intro hid
    have hform := (mandateId_eq_iff (short_mandateFor (by decide) (by decide))
      (short_mandateFor (by decide) (by decide)) (Set.injOn_pair.mpr (by decide +kernel))).1.mp hid
    exact absurd (congrArg (fun m => m.scope.allowedOps) hform) (by decide)

end Sample

end Mandate
end ElaraMesh
