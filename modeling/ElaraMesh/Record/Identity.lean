import ElaraMesh.Record.Json
import ElaraMesh.Smt.Hash

/-!
# Identity hashes

A key is known by the SHA3-256 of its public bytes, written in hexadecimal digits.  The
crate writes them in lower case and compares them without regard to case.

## Main results

* `Str.hex_injective`, `len_sha3Hex`.
-/

namespace ElaraMesh
namespace Record

open Smt (Sha3 sha3_256)

/-! ### Case -/

def asciiLower (b : UInt8) : UInt8 := if 0x41 ≤ b ∧ b ≤ 0x5a then b + 32 else b

/-- The bytes of a string, with ASCII letters in lower case. -/
def Str.lower (s : Str) : List UInt8 := s.bytes.map asciiLower

/-- Equality without regard to the case of ASCII letters. -/
def Str.eqIgnoreAsciiCase (s t : Str) : Bool := s.lower = t.lower

theorem utf8Error_of_ascii {l : List UInt8} (h : ∀ b ∈ l, b < 0x80) (index : ℕ) :
    utf8Error index l = none := by
  induction l generalizing index with
  | nil => rfl
  | cons b l ih =>
    have hwidth : utf8CharWidth b = 1 := by
      unfold utf8CharWidth
      rw [if_pos (h b List.mem_cons_self)]
    unfold utf8Error
    rw [hwidth]
    exact ih (fun c hc => h c (List.mem_cons_of_mem b hc)) (index + 1)

/-! ### Hexadecimal digits -/

/-- A byte in two hexadecimal digits. -/
def hexPair (b : UInt8) : List UInt8 := [hexDigit (b >>> 4), hexDigit (b &&& 0xf)]

/-- The value of a hexadecimal digit, in lower or upper case. -/
def hexValue (c : UInt8) : Option UInt8 :=
  if 0x30 ≤ c ∧ c ≤ 0x39 then some (c - 48)
  else if 0x61 ≤ c ∧ c ≤ 0x66 then some (c - 87)
  else if 0x41 ≤ c ∧ c ≤ 0x46 then some (c - 55)
  else none

/-- The bytes of hexadecimal digits. -/
def hexDecode : List UInt8 → Option (List UInt8)
  | [] => some []
  | [_] => none
  | a :: b :: rest => do
    let high ← hexValue a
    let low ← hexValue b
    return (high * 16 + low) :: (← hexDecode rest)

/-- A property of a byte is checked on the 256 values. -/
theorem forall_byte {p : UInt8 → Prop} (h : ∀ n ∈ List.range 256, p (UInt8.ofNat n)) (b : UInt8) :
    p b := by
  rw [← UInt8.ofNat_toNat (x := b)]
  exact h b.toNat (List.mem_range.mpr b.toNat_lt)

theorem hexPair_ascii (b c : UInt8) (hc : c ∈ hexPair b) : c < 0x80 ∧ asciiLower c = c := by
  have h : ∀ b, (hexPair b).all fun c => decide (c < 0x80 ∧ asciiLower c = c) := by
    apply forall_byte
    decide +kernel
  exact of_decide_eq_true (List.all_eq_true.mp (h b) c hc)

theorem hexPair_injective : Function.Injective hexPair := by
  have h : ∀ b : UInt8, UInt8.ofNat (((hexPair b).map fun c =>
      if c < 58 then c.toNat - 48 else c.toNat - 87).foldl (fun n d => 16 * n + d) 0) = b := by
    apply forall_byte
    decide +kernel
  intro a b hab
  rw [← h a, hab, h b]

theorem length_flatMap_hexPair (l : List UInt8) : (l.flatMap hexPair).length = 2 * l.length := by
  induction l with
  | nil => rfl
  | cons b l ih =>
    rw [List.flatMap_cons, List.length_append, ih, List.length_cons, Nat.mul_succ, Nat.add_comm]
    rfl

/-- Bytes in hexadecimal digits. -/
def Str.hex (l : List UInt8) : Str where
  bytes := l.flatMap hexPair
  valid := by
    refine utf8Error_of_ascii (fun c hc => ?_) 0
    obtain ⟨b, _, hc⟩ := List.mem_flatMap.mp hc
    exact (hexPair_ascii b c hc).1

theorem Str.len_hex (l : List UInt8) : (Str.hex l).len = 2 * l.length := length_flatMap_hexPair l

theorem Str.hex_injective : Function.Injective Str.hex := by
  intro l l' h
  have hbytes : l.flatMap hexPair = l'.flatMap hexPair := congrArg Str.bytes h
  have hlen : l.length = l'.length := by
    have hlength := congrArg List.length hbytes
    rw [length_flatMap_hexPair, length_flatMap_hexPair] at hlength
    omega
  have hpairs : l.map (fun a => (hexPair a).length) = l'.map fun a => (hexPair a).length := by
    show l.map (fun _ => 2) = l'.map fun _ => 2
    rw [List.map_const', List.map_const', hlen]
  have happend : l.flatMap hexPair ++ [] = l'.flatMap hexPair ++ [] := by rw [hbytes]
  exact (Framing.flatMap_append_inj hexPair_injective hpairs happend).1

/-- The SHA3-256 of bytes in hexadecimal digits. -/
def sha3Hex [Sha3] (l : List UInt8) : Str := Str.hex (sha3_256 l).data

theorem len_sha3Hex [Sha3] (l : List UInt8) : (sha3Hex l).len = 64 := by
  unfold sha3Hex
  rw [Str.len_hex, (sha3_256 l).size_eq]

end Record
end ElaraMesh
