import ElaraMesh.Ledger.Preimage
import ElaraMesh.Record.Received

/-!
# The content hash at the other end of the wire

The content hash of a ledger record is checked against the metadata as they were decoded.  On the
wire an integer that is no `i64` is a float.  The canonical text of a value takes this into
account, but only for the value itself: an array or an object is written as JSON, with its
integers as integers before and as floats after.

## Main results

* `canonical_wired_iff` — which values have the same text after the wire.
* `preimage_transported_iff` — the text of the metadata is the same, if and only if no array or
  object in it has an integer that is no `i64`.
-/

namespace ElaraMesh.Ledger

open Record (Str Value Number FloatFormat WireReader Increasing encodeMetadataBinary
  decodeMetadataBinary reads_decodeMetadataBinary returns_decodeMetadataBinary maxMetadataEntries
  maxMetadataDepth)
open Record.ValidationRecord (allFinite_of_accepted)
open Smt (Sha3)

section Transport

variable [FloatFormat]

/-- A number has the same text after the wire. -/
theorem canonical_number_wired (n : Number) :
    canonicalPreimageValue n.wired = canonicalPreimageValue (.number n) := by
  cases n with
  | float bits => rfl
  | int i =>
    by_cases hi : -2 ^ 63 ≤ i ∧ i < 2 ^ 63
    · have hi64 : (Value.number (.int i)).allI64 = true := by
        simp only [Value.allI64, decide_eq_true hi]
      rw [(Value.number_wired_eq_self_iff _).mpr hi64]
    · have hwired : (Number.int i).wired =
          .number (.float (F64.round (i < 0) (i.natAbs * F64.one) 0).bits) := by
        simp only [Number.wired, Value.asI64, if_neg hi, Value.asF64]
      rw [hwired, canonical_large hi rfl]
      rfl

omit [FloatFormat] in
theorem compound_wired {v : Value} (hv : Compound v) : Compound v.wired := by
  cases v with
  | array items => trivial
  | object fields => trivial
  | _ => exact hv.elim

/-- The text of an array or an object is the same after the wire if all its integers are `i64`s;
other values always have the same text. -/
theorem canonical_wired_iff (hff : FloatFormat.Lawful) {v : Value} (hfinite : v.allFinite = true)
    (hfinite' : v.wired.allFinite = true) :
    canonicalPreimageValue v.wired = canonicalPreimageValue v ↔
      (Compound v → v.allI64 = true) := by
  by_cases hv : Compound v
  · rw [imp_iff_right hv, ← Value.wired_eq_self_iff]
    refine ⟨fun h => ?_, fun h => congrArg _ h⟩
    exact canonical_compound_inj hff (compound_wired hv) hv hfinite' hfinite h
  · refine iff_of_true ?_ fun h => absurd h hv
    cases v with
    | null => rfl
    | bool b => rfl
    | string s => rfl
    | number n => exact canonical_number_wired n
    | array items => exact absurd trivial hv
    | object fields => exact absurd trivial hv

omit [FloatFormat] in
theorem metaGet_wiredFields (metadata : List (Str × Value)) (key : String) :
    metaGet (Value.wiredFields metadata) key = (metaGet metadata key).map Value.wired := by
  rw [Value.wiredFields_eq]
  induction metadata with
  | nil => rfl
  | cons e metadata ih =>
    obtain ⟨k, v⟩ := e
    simp only [metaGet, List.map_cons, List.lookup_cons] at ih ⊢
    split
    · rfl
    · exact ih

omit [FloatFormat] in
/-- What is decoded are the metadata as they are on the wire. -/
theorem decoded_eq {metadata metadata' : List (Str × Value)} (hkeys : Increasing metadata)
    (hsorted : ∀ e ∈ metadata, e.2.Sorted) {bytes : List UInt8}
    (hbytes : encodeMetadataBinary metadata = .ok bytes) {rest : WireReader}
    (hread : decodeMetadataBinary (WireReader.new bytes) = .ok (metadata', rest)) :
    (∀ e ∈ metadata, e.2.Accepted (maxMetadataDepth + 1)) ∧
      metadata' = Value.wiredFields metadata := by
  have hahead : (WireReader.new bytes).Ahead (bytes ++ []) :=
    ⟨Nat.zero_le _, (List.append_nil bytes).symm⟩
  obtain ⟨hyes, hno⟩ := reads_decodeMetadataBinary hkeys hsorted hbytes _ [] hahead
  by_cases hok : metadata.length ≤ maxMetadataEntries ∧
      ∀ e ∈ metadata, e.2.Accepted (maxMetadataDepth + 1)
  · obtain ⟨rest', hrun, -⟩ := hyes hok
    cases hread.symm.trans hrun
    exact ⟨hok.2, rfl⟩
  · obtain ⟨e, hrun⟩ := hno hok
    exact nomatch hread.symm.trans hrun

/-- The text of the metadata is the same at the other end of the wire, if and only if it asks for
no operation, or no array or object in it has an integer that is no `i64`. -/
theorem preimage_transported_iff [Sha3] (hff : FloatFormat.Lawful)
    {metadata metadata' : List (Str × Value)} (hkeys : Increasing metadata)
    (hsorted : ∀ e ∈ metadata, e.2.Sorted) {bytes : List UInt8}
    (hbytes : encodeMetadataBinary metadata = .ok bytes) {rest : WireReader}
    (hread : decodeMetadataBinary (WireReader.new bytes) = .ok (metadata', rest))
    (creatorPublicKey : List UInt8) (nonce : UInt64) :
    canonicalLedgerPreimageV2 metadata' creatorPublicKey nonce =
        canonicalLedgerPreimageV2 metadata creatorPublicKey nonce ↔
      metaGet metadata "beat_op" = none ∨ ∀ e ∈ metadata, Compound e.2 → e.2.allI64 = true := by
  have hfinite := Value.allFiniteFields_iff.mp (returns_decodeMetadataBinary _ _ _ hread)
  obtain ⟨haccepted, rfl⟩ := decoded_eq hkeys hsorted hbytes hread
  rw [Value.wiredFields_eq] at hfinite
  have htext : ∀ e ∈ metadata, canonicalPreimageValue e.2.wired = canonicalPreimageValue e.2 ↔
      (Compound e.2 → e.2.allI64 = true) := fun e he =>
    canonical_wired_iff hff (allFinite_of_accepted (haccepted e he))
      (hfinite _ (List.mem_map_of_mem he))
  cases hop : metaGet metadata "beat_op" with
  | none =>
    refine iff_of_true ?_ (.inl rfl)
    simp [canonicalLedgerPreimageV2, metaGet_wiredFields, hop]
  | some op =>
    rw [or_iff_right (Option.some_ne_none op), ← forall₂_congr htext]
    constructor
    · -- one text, so one text for each value
      intro h e he
      obtain ⟨text, hsome⟩ := Option.isSome_iff_exists.mp
        (show (canonicalLedgerPreimageV2 metadata creatorPublicKey nonce).isSome = true by
          simp [canonicalLedgerPreimageV2, hop])
      have hentries := entries_of_preimage (h.trans hsome) hsome
      rw [Value.wiredFields_eq, List.map_map] at hentries
      exact (Prod.mk.inj (List.map_inj_left.mp hentries e he)).2
    · intro h
      have hwords : (Value.wiredFields metadata).flatMap
            (fun e => [e.1.bytes, canonicalPreimageValue e.2]) =
          metadata.flatMap fun e => [e.1.bytes, canonicalPreimageValue e.2] := by
        rw [Value.wiredFields_eq, List.flatMap_map]
        refine List.flatMap_congr fun e he => ?_
        rw [h e he]
      simp only [canonicalLedgerPreimageV2, metaGet_wiredFields, hop, Option.map_some, hwords]
      rfl

end Transport

/-! ### Integers that are carried over, and one that is not -/

section Samples

attribute [local instance] Smt.guardedSha3 Record.bitsFormat

/-- Metadata with an operation and one more entry. -/
def withMemo (memo : Value) : List (Str × Value) :=
  [(.text "beat_op", .string (.text "transfer")), (.text "memo", memo)]

theorem sorted_withMemo {memo : Value} (h : memo.Sorted) :
    Increasing (withMemo memo) ∧ ∀ e ∈ withMemo memo, e.2.Sorted := by
  refine ⟨by simp [Increasing, withMemo]; decide, ?_⟩
  simp only [withMemo, List.forall_mem_cons]
  exact ⟨Value.Sorted.string _, h, List.forall_mem_nil _⟩

/-- Metadata that the codec takes: they are encoded, and decoded as they are on the wire. -/
theorem exists_decoded {memo : Value} (h : memo.Sorted)
    (hencoded : (encodeMetadataBinary (withMemo memo)).isOk = true)
    (haccepted : memo.Accepted (maxMetadataDepth + 1)) :
    ∃ bytes rest, encodeMetadataBinary (withMemo memo) = .ok bytes ∧
      decodeMetadataBinary (WireReader.new bytes) =
        .ok (Value.wiredFields (withMemo memo), rest) := by
  obtain ⟨hkeys, hsorted⟩ := sorted_withMemo h
  cases hbytes : encodeMetadataBinary (withMemo memo) with
  | error e => rw [hbytes] at hencoded; cases hencoded
  | ok bytes =>
    have hahead : (WireReader.new bytes).Ahead (bytes ++ []) :=
      ⟨Nat.zero_le _, (List.append_nil bytes).symm⟩
    have hfits : (withMemo memo).length ≤ maxMetadataEntries ∧
        ∀ e ∈ withMemo memo, e.2.Accepted (maxMetadataDepth + 1) := by
      refine ⟨by simp [withMemo, maxMetadataEntries], ?_⟩
      simp only [withMemo, List.forall_mem_cons]
      exact ⟨trivial, haccepted, List.forall_mem_nil _⟩
    obtain ⟨rest, hrun, -⟩ := (reads_decodeMetadataBinary hkeys hsorted hbytes _ [] hahead).1 hfits
    exact ⟨bytes, rest, rfl, hrun⟩

/-- An integer of 64 bits that is no `i64` is carried over by itself. -/
theorem large_memo_transported : ∃ bytes metadata' rest,
    encodeMetadataBinary (withMemo (.number (.int (2 ^ 63)))) = .ok bytes ∧
      decodeMetadataBinary (WireReader.new bytes) = .ok (metadata', rest) ∧
      canonicalLedgerPreimageV2 metadata' [] 0 =
        canonicalLedgerPreimageV2 (withMemo (.number (.int (2 ^ 63)))) [] 0 := by
  have hmemo := Value.Sorted.number (.int (2 ^ 63))
  obtain ⟨hkeys, hsorted⟩ := sorted_withMemo hmemo
  have hfinite : (Number.int (2 ^ 63)).wired.allFinite = true := by decide +kernel
  obtain ⟨bytes, rest, hbytes, hread⟩ := exists_decoded hmemo (by decide +kernel) hfinite
  refine ⟨bytes, _, rest, hbytes, hread, ?_⟩
  exact (preimage_transported_iff Record.bitsFormat_lawful hkeys hsorted hbytes hread [] 0).mpr
    (.inr (by simp [withMemo, Compound]))

/-- In an array it is not. -/
theorem nested_memo_lost : ∃ bytes metadata' rest,
    (Increasing (withMemo (.array [.number (.int (2 ^ 63))])) ∧
      ∀ e ∈ withMemo (.array [.number (.int (2 ^ 63))]), e.2.Sorted) ∧
      encodeMetadataBinary (withMemo (.array [.number (.int (2 ^ 63))])) = .ok bytes ∧
      decodeMetadataBinary (WireReader.new bytes) = .ok (metadata', rest) ∧
      canonicalLedgerPreimageV2 metadata' [] 0 ≠
        canonicalLedgerPreimageV2 (withMemo (.array [.number (.int (2 ^ 63))])) [] 0 := by
  have hmemo : (Value.array [.number (.int (2 ^ 63))]).Sorted := by
    refine Value.Sorted.array ?_
    simp only [List.forall_mem_cons]
    exact ⟨Value.Sorted.number _, nofun⟩
  have hfinite : (Number.int (2 ^ 63)).wired.allFinite = true := by decide +kernel
  have haccepted : (Value.array [.number (.int (2 ^ 63))]).Accepted (maxMetadataDepth + 1) := by
    refine ⟨by decide, ?_⟩
    simp only [List.forall_mem_cons]
    exact ⟨hfinite, nofun⟩
  obtain ⟨bytes, rest, hbytes, hread⟩ := exists_decoded hmemo (by decide +kernel) haccepted
  exact ⟨bytes, _, rest, sorted_withMemo hmemo, hbytes, hread, by decide +kernel⟩

end Samples

end ElaraMesh.Ledger
