import ElaraMesh.Record.Identity
import Mathlib.Data.List.Destutter

/-!
# Mandates

A principal grants an agent a scoped authority for a window of time.  A mandate is known
by the hash of a canonical encoding, in which every part that varies has its length in
front and the lists of the scope are sorted and without duplicates.

## Main results

* `allowsOp_of_scopeWithin`, `allowsZone_of_scopeWithin` — a scope within another one
  allows no more.
* `canonicalized_eq_of_bytes_eq` — the canonical encoding determines the canonical form.
-/

namespace ElaraMesh
namespace Mandate

open Framing
open Record (Str sha3Hex)
open Smt (Sha3)

/-! ### Scopes -/

structure MandateScope where
  allowedOps : List Str
  /-- Zone paths, each with the zones below it, or `*` for any. -/
  allowedZones : List Str
  /-- No limit if absent. -/
  maxAmount : Option UInt64
  deriving DecidableEq

namespace MandateScope

/-- The entry that stands for everything. -/
def star : Str := ⟨[0x2a], rfl⟩

def isWildcard (s : MandateScope) : Bool :=
  s.maxAmount.isNone && s.allowedOps.any (· = star) && s.allowedZones.any (· = star)

def allowsOp (s : MandateScope) (op : Str) : Bool := s.allowedOps.any fun o => o = star ∨ o = op

/-- Is the zone an entry, or a path below one? -/
def allowsZone (s : MandateScope) (zone : Str) : Bool :=
  s.allowedZones.any fun z => z = star ∨ zone = z ∨ z.bytes ++ [0x2f] <+: zone.bytes

/-- Is the amount, none being zero, within the limit? -/
def allowsAmount (s : MandateScope) (amount : Option UInt64) : Bool :=
  !(s.maxAmount.any fun max => max < amount.getD 0)

theorem allowsOp_iff {s : MandateScope} {op : Str} :
    s.allowsOp op = true ↔ ∃ o ∈ s.allowedOps, o = star ∨ o = op := by
  simp only [allowsOp, List.any_eq_true, decide_eq_true_eq]

theorem allowsZone_iff {s : MandateScope} {zone : Str} : s.allowsZone zone = true ↔
    ∃ z ∈ s.allowedZones, z = star ∨ zone = z ∨ z.bytes ++ [0x2f] <+: zone.bytes := by
  simp only [allowsZone, List.any_eq_true, decide_eq_true_eq]

theorem allowsAmount_iff {s : MandateScope} {amount : Option UInt64} :
    s.allowsAmount amount = true ↔ ∀ max, s.maxAmount = some max → amount.getD 0 ≤ max := by
  unfold allowsAmount
  cases s.maxAmount <;> simp

end MandateScope

open MandateScope (star)

/-- The limit of a child is within that of its parent. -/
def amountWithin : Option UInt64 → Option UInt64 → Bool
  | _, none => true
  | none, some _ => false
  | some c, some p => c ≤ p

/-- Does the child grant no more than the parent? -/
def scopeWithin (child parent : MandateScope) : Bool :=
  child.allowedOps.all parent.allowsOp && child.allowedZones.all parent.allowsZone &&
    amountWithin child.maxAmount parent.maxAmount

section Within

variable {child parent : MandateScope}

theorem scopeWithin_iff : scopeWithin child parent = true ↔
    (∀ op ∈ child.allowedOps, parent.allowsOp op = true) ∧
      (∀ z ∈ child.allowedZones, parent.allowsZone z = true) ∧
      amountWithin child.maxAmount parent.maxAmount = true := by
  simp only [scopeWithin, Bool.and_eq_true, List.all_eq_true, and_assoc]

theorem allowsOp_of_scopeWithin (h : scopeWithin child parent = true) {op : Str}
    (hop : child.allowsOp op = true) : parent.allowsOp op = true := by
  obtain ⟨o, ho, hcase⟩ := MandateScope.allowsOp_iff.mp hop
  have hparent := (scopeWithin_iff.mp h).1 o ho
  rcases hcase with rfl | rfl
  · -- a parent that allows the star has it
    obtain ⟨p, hp, hstar⟩ := MandateScope.allowsOp_iff.mp hparent
    exact MandateScope.allowsOp_iff.mpr ⟨p, hp, Or.inl (hstar.elim id id)⟩
  · exact hparent

theorem star_of_allowsZone_star (h : parent.allowsZone star = true) : star ∈ parent.allowedZones := by
  obtain ⟨p, hp, rfl | rfl | hbelow⟩ := MandateScope.allowsZone_iff.mp h
  · exact hp
  · exact hp
  · -- the star is no path below another one
    have hslash := hbelow.subset (List.mem_append_right p.bytes (List.mem_singleton_self 0x2f))
    exact absurd hslash (by decide)

theorem allowsZone_of_scopeWithin (h : scopeWithin child parent = true) {zone : Str}
    (hzone : child.allowsZone zone = true) : parent.allowsZone zone = true := by
  obtain ⟨z, hz, hcase⟩ := MandateScope.allowsZone_iff.mp hzone
  have hparent := (scopeWithin_iff.mp h).2.1 z hz
  rcases hcase with rfl | rfl | hbelow
  · exact MandateScope.allowsZone_iff.mpr ⟨star, star_of_allowsZone_star hparent, Or.inl rfl⟩
  · exact hparent
  · obtain ⟨p, hp, hcase⟩ := MandateScope.allowsZone_iff.mp hparent
    refine MandateScope.allowsZone_iff.mpr ⟨p, hp, hcase.imp_right fun hcase => Or.inr ?_⟩
    rcases hcase with rfl | habove
    · exact hbelow
    · exact habove.trans ((List.prefix_append _ _).trans hbelow)

theorem allowsAmount_of_scopeWithin (h : scopeWithin child parent = true) {amount : Option UInt64}
    (hamount : child.allowsAmount amount = true) : parent.allowsAmount amount = true := by
  have hwithin := (scopeWithin_iff.mp h).2.2
  rw [MandateScope.allowsAmount_iff] at hamount ⊢
  intro max hmax
  rw [hmax] at hwithin
  cases hc : child.maxAmount with
  | none =>
    rw [hc] at hwithin
    cases hwithin
  | some c =>
    rw [hc] at hwithin
    exact UInt64.le_trans (hamount c hc) (of_decide_eq_true hwithin)

end Within

/-! ### Mandates -/

/-- A grant of authority from a principal to an agent. -/
structure MandateRecord where
  version : UInt8
  networkId : Str
  principalIdentityHash : Str
  agentIdentityHash : Str
  scope : MandateScope
  notBeforeMs : UInt64
  notAfterMs : UInt64
  /-- None of its agents may delegate further than this. -/
  subDelegationMaxDepth : UInt8
  /-- The mandate this one is delegated from, if it is not a root. -/
  parentMandateId : Option Str
  nonce : Str
  deriving DecidableEq

/-- The text `ELARA_MANDATE_V1`. -/
def mandateDomainTag : List UInt8 :=
  [0x45, 0x4c, 0x41, 0x52, 0x41, 0x5f, 0x4d, 0x41, 0x4e, 0x44, 0x41, 0x54, 0x45, 0x5f, 0x56, 0x31]

def mandateFormatVersion : UInt8 := 1

/-- The number of hexadecimal digits of an identity hash. -/
def identityHashHexLen : ℕ := 64

def isAsciiHexdigit (b : UInt8) : Bool :=
  (0x30 ≤ b ∧ b ≤ 0x39) ∨ (0x41 ≤ b ∧ b ≤ 0x46) ∨ (0x61 ≤ b ∧ b ≤ 0x66)

def isIdentityHash (s : Str) : Bool := s.len = identityHashHexLen && s.bytes.all isAsciiHexdigit

/-- In order, and without neighbours that are equal. -/
def sortedDeduped (v : List Str) : List Str := (v.insertionSort (· ≤ ·)).destutter (· ≠ ·)

def pushLp (s : Str) : List UInt8 := sized 4 s.bytes

namespace MandateRecord

/-- The bytes of an optional limit, with a tag in front. -/
def amountBytes : Option UInt64 → List UInt8
  | none => [0]
  | some v => 1 :: bigEndian 8 v.toNat

/-- The bytes of an optional parent, with a tag in front. -/
def parentBytes : Option Str → List UInt8
  | none => [0]
  | some id => 1 :: pushLp id

def canonicalSigningBytes (m : MandateRecord) : List UInt8 :=
  let ops := sortedDeduped m.scope.allowedOps
  let zones := sortedDeduped m.scope.allowedZones
  mandateDomainTag ++ [m.version] ++ pushLp m.networkId ++ pushLp m.principalIdentityHash ++
  pushLp m.agentIdentityHash ++
  bigEndian 4 ops.length ++ ops.flatMap pushLp ++
  bigEndian 4 zones.length ++ zones.flatMap pushLp ++
  amountBytes m.scope.maxAmount ++
  bigEndian 8 m.notBeforeMs.toNat ++ bigEndian 8 m.notAfterMs.toNat ++
  [m.subDelegationMaxDepth] ++ parentBytes m.parentMandateId ++ pushLp m.nonce

def mandateId [Sha3] (m : MandateRecord) : Str := sha3Hex m.canonicalSigningBytes

/-- Is the mandate of a known version, with a window and with identity hashes? -/
def isWellFormed (m : MandateRecord) : Bool :=
  m.version = mandateFormatVersion && m.notBeforeMs < m.notAfterMs &&
    isIdentityHash m.principalIdentityHash && isIdentityHash m.agentIdentityHash

/-- The same mandate with the lists of its scope in canonical form. -/
def canonicalized (m : MandateRecord) : MandateRecord :=
  { m with scope := { m.scope with
      allowedOps := sortedDeduped m.scope.allowedOps
      allowedZones := sortedDeduped m.scope.allowedZones } }

/-! ### The encoding determines the mandate -/

/-- The parts of a mandate are so short that four bytes hold their lengths. -/
structure Short (m : MandateRecord) : Prop where
  network : m.networkId.len < 256 ^ 4
  principal : m.principalIdentityHash.len < 256 ^ 4
  agent : m.agentIdentityHash.len < 256 ^ 4
  ops : m.scope.allowedOps.length < 256 ^ 4
  op : ∀ o ∈ m.scope.allowedOps, o.len < 256 ^ 4
  zones : m.scope.allowedZones.length < 256 ^ 4
  zone : ∀ z ∈ m.scope.allowedZones, z.len < 256 ^ 4
  parent : ∀ id, m.parentMandateId = some id → id.len < 256 ^ 4
  nonce : m.nonce.len < 256 ^ 4

end MandateRecord

theorem sublist_sortedDeduped (v : List Str) :
    List.Sublist (sortedDeduped v) (v.insertionSort (· ≤ ·)) :=
  List.destutter_sublist _ _

theorem length_sortedDeduped_le (v : List Str) : (sortedDeduped v).length ≤ v.length :=
  (sublist_sortedDeduped v).length_le.trans (List.length_insertionSort _ v).le

theorem mem_of_mem_sortedDeduped {v : List Str} {s : Str} (h : s ∈ sortedDeduped v) : s ∈ v :=
  (List.mem_insertionSort _).mp ((sublist_sortedDeduped v).subset h)

theorem pushLp_append_inj {s t : Str} (hs : s.len < 256 ^ 4) (ht : t.len < 256 ^ 4)
    {x y : List UInt8} (h : pushLp s ++ x = pushLp t ++ y) : s = t ∧ x = y := by
  obtain ⟨hbytes, hxy⟩ := sized_append_inj hs ht h
  exact ⟨Str.ext hbytes, hxy⟩

/-- A list of the scope, behind the number of its entries. -/
theorem entries_append_inj {v w : List Str} (hv : v.length < 256 ^ 4) (hw : w.length < 256 ^ 4)
    (hsv : ∀ s ∈ v, s.len < 256 ^ 4) (hsw : ∀ s ∈ w, s.len < 256 ^ 4) {x y : List UInt8}
    (h : bigEndian 4 (sortedDeduped v).length ++ ((sortedDeduped v).flatMap pushLp ++ x) =
      bigEndian 4 (sortedDeduped w).length ++ ((sortedDeduped w).flatMap pushLp ++ y)) :
    sortedDeduped v = sortedDeduped w ∧ x = y := by
  have hcounted : ∀ (u : List Str) (z : List UInt8),
      bigEndian 4 (sortedDeduped u).length ++ ((sortedDeduped u).flatMap pushLp ++ z) =
        counted 4 ((sortedDeduped u).map Str.bytes) ++ z := by
    intro u z
    rw [counted, List.length_map, List.flatMap_map, List.append_assoc]
    rfl
  have hwords : ∀ u : List Str, (∀ s ∈ u, s.len < 256 ^ 4) →
      ∀ l ∈ (sortedDeduped u).map Str.bytes, l.length < 256 ^ 4 := by
    intro u hu l hl
    obtain ⟨s, hs, rfl⟩ := List.mem_map.mp hl
    exact hu s (mem_of_mem_sortedDeduped hs)
  have hlength : ∀ u : List Str, u.length < 256 ^ 4 →
      ((sortedDeduped u).map Str.bytes).length < 256 ^ 4 := by
    intro u hu
    rw [List.length_map]
    exact (length_sortedDeduped_le u).trans_lt hu
  rw [hcounted, hcounted] at h
  obtain ⟨hmap, hxy⟩ := counted_append_inj (hlength v hv) (hlength w hw) (hwords v hsv)
    (hwords w hsw) h
  exact ⟨List.map_injective_iff.mpr Str.bytes_injective hmap, hxy⟩

namespace MandateRecord

theorem amountBytes_append_inj {a b : Option UInt64} {x y : List UInt8}
    (h : amountBytes a ++ x = amountBytes b ++ y) : a = b ∧ x = y := by
  have h64 : ∀ n : UInt64, n.toNat < 256 ^ 8 := fun n => n.toNat_lt
  cases a with
  | none =>
    cases b with
    | none => exact ⟨rfl, (List.cons.inj h).2⟩
    | some w => exact absurd (List.cons.inj h).1 (by decide)
  | some v =>
    cases b with
    | none => exact absurd (List.cons.inj h).1 (by decide)
    | some w =>
      obtain ⟨hvw, hxy⟩ := bigEndian_append_inj (h64 v) (h64 w) (List.cons.inj h).2
      exact ⟨congrArg some (UInt64.toNat_inj.mp hvw), hxy⟩

theorem parentBytes_append_inj {a b : Option Str} (ha : ∀ id, a = some id → id.len < 256 ^ 4)
    (hb : ∀ id, b = some id → id.len < 256 ^ 4) {x y : List UInt8}
    (h : parentBytes a ++ x = parentBytes b ++ y) : a = b ∧ x = y := by
  cases a with
  | none =>
    cases b with
    | none => exact ⟨rfl, (List.cons.inj h).2⟩
    | some t => exact absurd (List.cons.inj h).1 (by decide)
  | some s =>
    cases b with
    | none => exact absurd (List.cons.inj h).1 (by decide)
    | some t =>
      obtain ⟨rfl, hxy⟩ := pushLp_append_inj (ha s rfl) (hb t rfl) (List.cons.inj h).2
      exact ⟨rfl, hxy⟩

/-- **The canonical encoding determines the canonical form.** -/
theorem canonicalized_eq_of_bytes_eq {m m' : MandateRecord} (hm : m.Short) (hm' : m'.Short)
    (h : m.canonicalSigningBytes = m'.canonicalSigningBytes) :
    m.canonicalized = m'.canonicalized := by
  have h64 : ∀ n : UInt64, n.toNat < 256 ^ 8 := fun n => n.toNat_lt
  unfold canonicalSigningBytes at h
  simp only [List.append_assoc, List.append_cancel_left_eq] at h
  obtain ⟨hversion, h⟩ := List.cons.inj h
  obtain ⟨hnetwork, h⟩ := pushLp_append_inj hm.network hm'.network h
  obtain ⟨hprincipal, h⟩ := pushLp_append_inj hm.principal hm'.principal h
  obtain ⟨hagent, h⟩ := pushLp_append_inj hm.agent hm'.agent h
  obtain ⟨hops, h⟩ := entries_append_inj hm.ops hm'.ops hm.op hm'.op h
  obtain ⟨hzones, h⟩ := entries_append_inj hm.zones hm'.zones hm.zone hm'.zone h
  obtain ⟨hamount, h⟩ := amountBytes_append_inj h
  obtain ⟨hbefore, h⟩ := bigEndian_append_inj (h64 _) (h64 _) h
  obtain ⟨hafter, h⟩ := bigEndian_append_inj (h64 _) (h64 _) h
  obtain ⟨hdepth, h⟩ := List.cons.inj h
  obtain ⟨hparent, h⟩ := parentBytes_append_inj hm.parent hm'.parent h
  rw [← List.append_nil (pushLp m.nonce), ← List.append_nil (pushLp m'.nonce)] at h
  obtain ⟨hnonce, -⟩ := pushLp_append_inj hm.nonce hm'.nonce h
  simp only [canonicalized, hversion, hnetwork, hprincipal, hagent, hops, hzones, hamount,
    UInt64.toNat_inj.mp hbefore, UInt64.toNat_inj.mp hafter, hdepth, hparent, hnonce]

end MandateRecord

end Mandate
end ElaraMesh
