import ElaraMesh.Record.Json
import ElaraMesh.Lib.F64

/-!
# Reading JSON values

Metadata values are read by type, and payloads are read into structures field by field:
by name from an object, by position from an array.  A field that may be absent is read
from `null` as well.

## Main definitions

* `Value.asU64`, `Value.asF64`, `Value.asStr`, `parseU64` — reading single values.
-/

namespace ElaraMesh
namespace Record

/-! ### Single values -/

namespace Value

def asUnsigned (bound : ℕ) : Value → Option ℕ
  | .number (.int i) => if 0 ≤ i ∧ i ≤ bound then some i.toNat else none
  | _ => none

def asU64 (v : Value) : Option UInt64 := (v.asUnsigned (2 ^ 64 - 1)).map UInt64.ofNat

def asI64 : Value → Option ℤ
  | .number (.int i) => if -2 ^ 63 ≤ i ∧ i < 2 ^ 63 then some i else none
  | _ => none

/-- A number as a float, rounded if it is an integer. -/
def asF64 : Value → Option F64
  | .number (.int i) => some (F64.round (i < 0) (i.natAbs * F64.one) 0)
  | .number (.float bits) => some ⟨bits⟩
  | _ => none

def asStr : Value → Option Str
  | .string s => some s
  | _ => none

def asBool : Value → Option Bool
  | .bool b => some b
  | _ => none

end Value

/-- The digits of a `u64`, the value so far in front. -/
def parseDigits (n : ℕ) : List UInt8 → Option ℕ
  | [] => some n
  | b :: rest =>
    if 0x30 ≤ b ∧ b ≤ 0x39 then
      let n := n * 10 + (b.toNat - 0x30)
      if n < 2 ^ 64 then parseDigits n rest else none
    else none

/-- A string as a `u64`: digits, with a plus sign in front or not. -/
def parseU64 (s : Str) : Option UInt64 :=
  let digits := if s.bytes.head? = some 0x2b then s.bytes.tail else s.bytes
  if digits = [] then none else (parseDigits 0 digits).map UInt64.ofNat

/-- Numerals of one length with one value are the same. -/
theorem parseDigits_inj {l l' : List UInt8} (hlength : l.length = l'.length) {n n' a : ℕ}
    (h : parseDigits n l = some a) (h' : parseDigits n' l' = some a) : n = n' ∧ l = l' := by
  induction l generalizing n n' l' with
  | nil =>
    obtain rfl := List.length_eq_zero_iff.mp hlength.symm
    exact ⟨Option.some.inj (h.trans h'.symm), rfl⟩
  | cons c l ih =>
    obtain ⟨c', l', rfl⟩ := List.exists_of_length_succ l' hlength.symm
    rw [parseDigits, Option.ite_none_right_eq_some] at h h'
    obtain ⟨⟨hlow, hhigh⟩, h⟩ := h
    obtain ⟨⟨hlow', hhigh'⟩, h'⟩ := h'
    obtain ⟨hn, rfl⟩ := ih (Nat.succ_injective hlength) (Option.ite_none_right_eq_some.mp h).2
      (Option.ite_none_right_eq_some.mp h').2
    -- a digit is less than the base
    rw [UInt8.le_iff_toNat_le] at hlow hhigh hlow' hhigh'
    have hdigit : c.toNat - 48 < 10 ∧ c'.toNat - 48 < 10 := ⟨Nat.sub_lt_left_of_lt_add hlow
      (Nat.lt_succ_of_le hhigh), Nat.sub_lt_left_of_lt_add hlow' (Nat.lt_succ_of_le hhigh')⟩
    have hlower : 48 ≤ c.toNat ∧ 48 ≤ c'.toNat := ⟨hlow, hlow'⟩
    obtain ⟨hnn, hcc⟩ : n = n' ∧ c.toNat = c'.toNat := by omega
    exact ⟨hnn, by rw [UInt8.toNat_inj.mp hcc]⟩

theorem parseDigits_lt {l : List UInt8} {n a : ℕ} (hn : n < 2 ^ 64)
    (h : parseDigits n l = some a) : a < 2 ^ 64 := by
  induction l generalizing n with
  | nil => exact Option.some.inj h ▸ hn
  | cons c l ih =>
    rw [parseDigits, Option.ite_none_right_eq_some] at h
    obtain ⟨hlt, h⟩ := Option.ite_none_right_eq_some.mp h.2
    exact ih hlt h

end Record
end ElaraMesh
