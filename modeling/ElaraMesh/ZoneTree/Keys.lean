import ElaraMesh.ZoneTree.CrossZone

/-!
# Keys of zones

The rows of a zone are kept under eight bytes: the number if the path of the zone is one, and the
first bytes of the hash of the path otherwise.  Different hashed paths have different keys as far as
the hash tells them apart.  A number can be written in several ways, with a plus sign or with zeros
in front, and these are different zones with one key; and a number may be the hash of another path.

## Main results

* `legacyValue_eq_iff` — paths stand for one number exactly if they have the same digits that count.
* `keysSeparate_iff` — when two zones have no row in common.
-/

namespace ElaraMesh.ZoneTree

open Record (ZoneId parseDigits)
open Smt (Bytes32 Sha3 sha3_256)

/-! ### Numbers -/

/-- The digits of a path that may start with a plus sign. -/
def digitsOf (zone : ZoneId) : List UInt8 :=
  if zone.path.head? = some 0x2b then zone.path.tail else zone.path

/-- The digits that count: the zeros in front are left out. -/
def significant (zone : ZoneId) : List UInt8 := (digitsOf zone).dropWhile (· = 0x30)

theorem parseDigits_zeros (k : ℕ) (l : List UInt8) :
    parseDigits 0 (List.replicate k 0x30 ++ l) = parseDigits 0 l := by
  induction k with
  | zero => rfl
  | succ k ih =>
    rw [List.replicate_succ, List.cons_append, parseDigits, if_pos (by decide)]
    exact (if_pos (by decide)).trans ih

theorem parseDigits_dropWhile (l : List UInt8) :
    parseDigits 0 (l.dropWhile (· = 0x30)) = parseDigits 0 l := by
  induction l with
  | nil => rfl
  | cons b l ih =>
    by_cases hb : b = 0x30
    · subst hb
      rw [List.dropWhile_cons_of_pos (by decide), ih]
      exact (parseDigits_zeros 1 l).symm
    · rw [List.dropWhile_cons_of_neg (by simpa using hb)]

/-- Digits without zeros in front are determined by their value. -/
theorem eq_of_parseDigits {l l' : List UInt8} {n : ℕ} (hl : l.head? ≠ some 0x30)
    (hl' : l'.head? ≠ some 0x30) (h : parseDigits 0 l = some n) (h' : parseDigits 0 l' = some n) :
    l = l' := by
  wlog hle : l.length ≤ l'.length generalizing l l'
  · exact (this hl' hl h' h (Nat.le_of_not_le hle)).symm
  -- the shorter one is filled up with zeros
  have hpad : (List.replicate (l'.length - l.length) 0x30 ++ l).length = l'.length := by
    rw [List.length_append, List.length_replicate]
    omega
  obtain ⟨-, heq⟩ := Record.parseDigits_inj hpad ((parseDigits_zeros _ l).trans h) h'
  cases hk : l'.length - l.length with
  | zero =>
    rw [hk] at heq
    exact heq
  | succ k =>
    rw [hk] at heq
    rw [← heq] at hl'
    exact absurd rfl hl'

theorem head?_significant (zone : ZoneId) : (significant zone).head? ≠ some 0x30 := by
  intro h
  have hfirst := List.head?_dropWhile_not (fun b : UInt8 => b = 0x30) (digitsOf zone)
  rw [← significant, h] at hfirst
  simp at hfirst

theorem parseDigits_significant {zone : ZoneId} {n : ℕ} (h : legacyValue zone = some n) :
    parseDigits 0 (significant zone) = some n := by
  rw [significant, parseDigits_dropWhile]
  unfold legacyValue at h
  exact (Option.ite_none_left_eq_some.mp h).2

theorem legacyValue_lt {z : ZoneId} {n : ℕ} (h : legacyValue z = some n) : n < 256 ^ 8 :=
  Record.parseDigits_lt (by decide) (parseDigits_significant h)

/-- Paths stand for one number exactly if the digits that count are the same. -/
theorem legacyValue_eq_iff {z z' : ZoneId} {n n' : ℕ} (h : legacyValue z = some n)
    (h' : legacyValue z' = some n') : n = n' ↔ significant z = significant z' := by
  have hn := parseDigits_significant h
  have hn' := parseDigits_significant h'
  constructor
  · rintro rfl
    exact eq_of_parseDigits (head?_significant z) (head?_significant z') hn hn'
  · intro heq
    rw [heq] at hn
    exact Option.some.inj (hn.symm.trans hn')

/-! ### Keys -/

section

variable [Sha3]

def nodeKey (zone : ZoneId) (depth : UInt8) (pathPrefix : UInt64) : List UInt8 :=
  toKeyBytes zone ++ [depth] ++ Framing.bigEndian 8 pathPrefix.toNat

def leafTag : List UInt8 := [0x6c, 0x65, 0x61, 0x66, 0x3a]

def countTag : List UInt8 := [0x63, 0x6f, 0x75, 0x6e, 0x74, 0x3a]

def leafKey (zone : ZoneId) (leafHash : Bytes32) : List UInt8 :=
  leafTag ++ toKeyBytes zone ++ leafHash.data

def countKey (zone : ZoneId) : List UInt8 := countTag ++ toKeyBytes zone

/-- Two zones have different keys, and no row in common. -/
structure KeysSeparate (z z' : ZoneId) : Prop where
  key : toKeyBytes z ≠ toKeyBytes z'
  node : ∀ depth depth' path path', nodeKey z depth path ≠ nodeKey z' depth' path'
  leaf : ∀ leafHash leafHash', leafKey z leafHash ≠ leafKey z' leafHash'
  count : countKey z ≠ countKey z'

/-- Both paths are numbers, and it is the same one. -/
structure SameNumber (z z' : ZoneId) : Prop where
  left : (legacyValue z).isSome
  right : (legacyValue z').isSome
  same : significant z = significant z'

/-- One path is the number that the other one is hashed to. -/
def NumberOfHash (z z' : ZoneId) : Prop :=
  legacyValue z' = none ∧ ∃ n, legacyValue z = some n ∧
    Framing.bigEndian 8 n = (sha3_256 z'.path).data.take 8

theorem toKeyBytes_of_some {z : ZoneId} {n : ℕ} (h : legacyValue z = some n) :
    toKeyBytes z = Framing.bigEndian 8 n := by
  rw [toKeyBytes, h]

theorem toKeyBytes_of_none {z : ZoneId} (h : legacyValue z = none) :
    toKeyBytes z = (sha3_256 z.path).data.take 8 := by
  rw [toKeyBytes, h]

theorem length_toKeyBytes (z : ZoneId) : (toKeyBytes z).length = 8 := by
  unfold toKeyBytes
  split
  · exact Framing.length_bigEndian 8 _
  · rw [List.length_take, Bytes32.size_eq]
    rfl

/-- The rows are apart where the keys are. -/
theorem keysSeparate_iff_key {z z' : ZoneId} : KeysSeparate z z' ↔ toKeyBytes z ≠ toKeyBytes z' := by
  have hlen : (toKeyBytes z).length = (toKeyBytes z').length :=
    (length_toKeyBytes z).trans (length_toKeyBytes z').symm
  refine ⟨KeysSeparate.key, fun h => ⟨h, ?_, ?_, ?_⟩⟩
  · intro depth depth' path path' heq
    rw [nodeKey, nodeKey, List.append_assoc, List.append_assoc] at heq
    exact h (List.append_inj_left heq hlen)
  · intro leafHash leafHash' heq
    rw [leafKey, leafKey, List.append_assoc, List.append_assoc] at heq
    exact h (List.append_inj_left (List.append_cancel_left heq) hlen)
  · intro heq
    exact h (List.append_cancel_left heq)

/-- **When the keys of two zones are apart.**  Where the hash, cut to eight bytes, tells the two
paths apart, different zones have no row in common exactly if they are not one number in two
spellings, and neither is a number that the other one is hashed to. -/
theorem keysSeparate_iff {z z' : ZoneId} (hne : z ≠ z')
    (hsha : (sha3_256 z.path).data.take 8 = (sha3_256 z'.path).data.take 8 → z.path = z'.path) :
    KeysSeparate z z' ↔ ¬ SameNumber z z' ∧ ¬ NumberOfHash z z' ∧ ¬ NumberOfHash z' z := by
  rw [keysSeparate_iff_key]
  cases h : legacyValue z with
  | none =>
    have hnumber : ¬ NumberOfHash z z' := fun hc => by
      obtain ⟨-, n, hn, -⟩ := hc
      cases h.symm.trans hn
    have hsame : ¬ SameNumber z z' := fun hc => by
      have hsome := hc.left
      rw [h] at hsome
      cases hsome
    rw [toKeyBytes_of_none h, and_iff_right hsame, and_iff_right hnumber]
    cases h' : legacyValue z' with
    | none =>
      have hother : ¬ NumberOfHash z' z := fun hc => by
        obtain ⟨-, n, hn, -⟩ := hc
        cases h'.symm.trans hn
      rw [toKeyBytes_of_none h', iff_true_right hother]
      exact fun heq => hne (congrArg ZoneId.mk (hsha heq))
    | some n =>
      rw [toKeyBytes_of_some h']
      refine not_congr ⟨fun heq => ⟨h, n, h', heq.symm⟩, ?_⟩
      rintro ⟨-, m, hm, heq⟩
      rw [Option.some.inj (h'.symm.trans hm), heq]
  | some n =>
    have hother : ¬ NumberOfHash z' z := fun hc => by cases h.symm.trans hc.1
    rw [toKeyBytes_of_some h, and_iff_left hother]
    cases h' : legacyValue z' with
    | none =>
      have hsame : ¬ SameNumber z z' := fun hc => by
        have hsome := hc.right
        rw [h'] at hsome
        cases hsome
      rw [toKeyBytes_of_none h', and_iff_right hsame]
      refine not_congr ⟨fun heq => ⟨h', n, h, heq⟩, ?_⟩
      rintro ⟨-, m, hm, heq⟩
      rw [Option.some.inj (h.symm.trans hm), heq]
    | some n' =>
      have hnumber : ¬ NumberOfHash z z' := fun hc => by cases h'.symm.trans hc.1
      rw [toKeyBytes_of_some h', and_iff_left hnumber]
      refine not_congr ⟨fun heq => ?_, fun hc => ?_⟩
      · have hnn := Framing.bigEndian_injective (legacyValue_lt h) (legacyValue_lt h') heq
        exact ⟨by rw [h]; rfl, by rw [h']; rfl, (legacyValue_eq_iff h h').mp hnn⟩
      · rw [(legacyValue_eq_iff h h').mpr hc.same]

end

section

attribute [local instance] Smt.guardedSha3 Record.asciiCase

/-- The paths `medical` and `finance`. -/
theorem keysSeparate_iff_paths : KeysSeparate ⟨(Record.Str.text "medical").bytes⟩
    ⟨(Record.Str.text "finance").bytes⟩ := by
  have hmedical : legacyValue ⟨(Record.Str.text "medical").bytes⟩ = none := by decide +kernel
  have hfinance : legacyValue ⟨(Record.Str.text "finance").bytes⟩ = none := by decide +kernel
  refine (keysSeparate_iff (by decide +kernel) (fun h => absurd h (by decide +kernel))).mpr
    ⟨fun h => ?_, fun h => ?_, fun h => ?_⟩
  · have hsome := h.left
    rw [hmedical] at hsome
    cases hsome
  · obtain ⟨-, n, hn, -⟩ := h
    cases hmedical.symm.trans hn
  · obtain ⟨-, n, hn, -⟩ := h
    cases hfinance.symm.trans hn

/-- The zones `7` and `007` are different ones, as they are created, and have one key. -/
theorem zone_spellings_share_key :
    ZoneId.new (Record.Str.text "7").bytes ≠ ZoneId.new (Record.Str.text "007").bytes ∧
      toKeyBytes (ZoneId.new (Record.Str.text "7").bytes) =
        toKeyBytes (ZoneId.new (Record.Str.text "007").bytes) := by
  decide +kernel

end

end ElaraMesh.ZoneTree
