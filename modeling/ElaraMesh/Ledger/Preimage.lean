import ElaraMesh.Ledger.Records
import ElaraMesh.Record.Metadata

/-!
# The text that the content hash of a ledger record is taken of

The content hash of a ledger record is taken of a canonical text: the creator, the nonce, and
every entry of the metadata, each part behind its length.  Values are flattened: an integer and
the numeral of it are one text, as the reader of amounts takes both.

## Main results

* `entries_of_preimage` — one text, so the same keys, and values of one text under each.
-/

namespace ElaraMesh.Ledger

open Record (Str Value FloatFormat parseU64 sha3Hex compactInt)
open Framing (decimal netstring flatMap_netstring_injective)
open Smt (Sha3)

/-! ### The canonical text -/

def metaGet (metadata : List (Str × Value)) (key : String) : Option Value :=
  metadata.lookup (.text key)

section Canonical

variable [FloatFormat]

def canonicalPreimageValue (v : Value) : List UInt8 :=
  match v.asI64, v.asStr, v.asBool, v.asF64 with
  | some i, _, _, _ => compactInt i
  | none, some s, _, _ =>
    match parseU64 s with
    | some n => decimal n.toNat
    | none => s.bytes
  | none, none, some b, _ => if b then (Str.text "true").bytes else (Str.text "false").bytes
  -- integers beyond an `i64`, and floats: the bits of the float, behind the letter `f`
  | none, none, none, some f => 0x66 :: decimal f.bits.toNat
  | none, none, none, none => v.compact

/-- The text of the metadata of a ledger record, none if it asks for no operation. -/
def canonicalLedgerPreimageV2 [Sha3] (metadata : List (Str × Value))
    (creatorPublicKey : List UInt8) (nonce : UInt64) : Option (List UInt8) := do
  let _ ← metaGet metadata "beat_op"
  let slot := [(Str.text "ELARA_LEDGER_V2").bytes, (Str.text "creator").bytes,
    (sha3Hex creatorPublicKey).bytes, (Str.text "nonce").bytes, decimal nonce.toNat]
  let entries := metadata.flatMap fun e => [e.1.bytes, canonicalPreimageValue e.2]
  return (slot ++ entries).flatMap netstring

/-! ### Values of one text -/

theorem canonical_large {i : ℤ} (hi : ¬ (-2 ^ 63 ≤ i ∧ i < 2 ^ 63)) {f : F64}
    (hf : (Value.number (.int i)).asF64 = some f) :
    canonicalPreimageValue (.number (.int i)) = 0x66 :: decimal f.bits.toNat := by
  simp only [canonicalPreimageValue, Value.asI64, if_neg hi, hf]
  rfl

/-- Arrays and objects. -/
def Compound : Value → Prop
  | .array _ => True
  | .object _ => True
  | _ => False

theorem canonical_compound {v : Value} (hv : Compound v) : canonicalPreimageValue v = v.compact := by
  cases v <;> first | rfl | exact hv.elim

/-- Arrays and objects of one text are the same. -/
theorem canonical_compound_inj (hff : FloatFormat.Lawful) {v w : Value} (hv : Compound v)
    (hw : Compound w) (hfinite : v.allFinite = true) (hfinite' : w.allFinite = true)
    (h : canonicalPreimageValue v = canonicalPreimageValue w) : v = w := by
  rw [canonical_compound hv, canonical_compound hw] at h
  refine (Value.compact_separable hff v w hfinite hfinite' [] [] (Framing.stops_nil _)
    (Framing.stops_nil _) (by rw [h])).1

/-! ### Metadata of one text -/

/-- **The text determines the keys, and the text of each value**: the lengths in front show
where each part ends. -/
theorem entries_of_preimage [Sha3] {m₁ m₂ : List (Str × Value)} {key₁ key₂ : List UInt8}
    {nonce₁ nonce₂ : UInt64} {text : List UInt8}
    (h₁ : canonicalLedgerPreimageV2 m₁ key₁ nonce₁ = some text)
    (h₂ : canonicalLedgerPreimageV2 m₂ key₂ nonce₂ = some text) :
    m₁.map (fun e => (e.1.bytes, canonicalPreimageValue e.2)) =
      m₂.map fun e => (e.1.bytes, canonicalPreimageValue e.2) := by
  simp only [canonicalLedgerPreimageV2, Option.bind_eq_bind, Option.bind_eq_some_iff,
    Option.pure_def, Option.some.injEq] at h₁ h₂
  obtain ⟨_, _, h₁⟩ := h₁
  obtain ⟨_, _, h₂⟩ := h₂
  have hwords := (List.append_inj (flatMap_netstring_injective (h₁.trans h₂.symm)) rfl).2
  have hpair : Function.Injective (List.flatMap fun p : List UInt8 × List UInt8 => [p.1, p.2]) := by
    refine Framing.flatMap_injective (fun p q r s h => ?_) fun p => by simp
    simp only [List.cons_append, List.nil_append, List.cons.injEq] at h
    exact ⟨Prod.ext h.1 h.2.1, h.2.2⟩
  apply hpair
  rw [List.flatMap_map, List.flatMap_map]
  exact hwords

end Canonical

end ElaraMesh.Ledger
