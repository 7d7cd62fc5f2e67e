import ElaraMesh.Lib.U64
import Mathlib.Tactic.Ring

/-!
# Variable-length integers

A `u64` is written in groups of seven bits, the lowest first, one group a byte; every byte
but the last has its high bit set.  The reader takes the groups as they come.  It does not
ask that the last group is used, nor that the groups fit into 64 bits, so a number has
several spellings, of which the writer produces one.

## Main results

* `Varint.decode_encode` — what was written is read back.
* `Varint.encode_iff_of_decode` — **the bytes that were read are what the writer writes if
  and only if they are a minimal spelling.**
-/

namespace Varint

def encode (v : ℕ) : List UInt8 :=
  if v < 128 then [UInt8.ofNat v] else UInt8.ofNat (v % 128 + 128) :: encode (v / 128)
termination_by v
decreasing_by omega

/-- Why a number cannot be read. -/
inductive ReadError where
  | eof
  | overflow
  deriving DecidableEq, Repr

/-- Read on, with the groups below `shift` in hand. -/
def decodeFrom (result shift : ℕ) : List UInt8 → Except ReadError (ℕ × List UInt8)
  | [] => .error .eof
  | b :: rest =>
    -- a shift of a `u64` drops what it moves past the highest bit
    let result := result ||| U64.wrap ((b.toNat % 128) <<< shift)
    if b.toNat < 128 then .ok (result, rest)
    else if 64 ≤ shift + 7 then .error .overflow
    else decodeFrom result (shift + 7) rest

/-- Read a number, and return the bytes after it. -/
def decode (data : List UInt8) : Except ReadError (ℕ × List UInt8) := decodeFrom 0 0 data

/-- The number that the groups of some bytes stand for. -/
def payload : List UInt8 → ℕ
  | [] => 0
  | b :: rest => b.toNat % 128 + 128 * payload rest

/-- The bytes up to the first one without the high bit. -/
def span : List UInt8 → List UInt8
  | [] => []
  | b :: rest => if b.toNat < 128 then [b] else b :: span rest

/-- The last group is used, unless it is the only one, and no bit is lost. -/
def Minimal (bytes : List UInt8) : Prop :=
  (bytes.length = 1 ∨ bytes.getLast? ≠ some 0) ∧ payload bytes ≤ U64.max

/-- Bytes that spell one number: the high bit is set on all but the last. -/
inductive Spelling : List UInt8 → Prop where
  | last {b : UInt8} (hb : b.toNat < 128) : Spelling [b]
  | more {b : UInt8} {l : List UInt8} (hb : ¬ b.toNat < 128) (hl : Spelling l) : Spelling (b :: l)

variable {l : List UInt8} {v : ℕ}

theorem Spelling.ne_nil (h : Spelling l) : l ≠ [] := by
  cases h <;> simp

theorem Spelling.span_append (h : Spelling l) (rest : List UInt8) :
    span (l ++ rest) = l := by
  induction h with
  | last hb => simp [span, hb]
  | more hb _ ih => simp [span, hb, ih]

/-! ### The writer -/

theorem spelling_encode (v : ℕ) : Spelling (encode v) := by
  fun_induction encode v with
  | case1 v hv => exact .last (by simp [UInt8.toNat_ofNat']; omega)
  | case2 v hv ih => exact .more (by simp [UInt8.toNat_ofNat']; omega) ih

theorem payload_encode (v : ℕ) : payload (encode v) = v := by
  fun_induction encode v with
  | case1 v hv => simp [payload, UInt8.toNat_ofNat']; omega
  | case2 v hv ih => simp [payload, UInt8.toNat_ofNat', ih]; omega

theorem getLast?_encode (h : (encode v).getLast? = some 0) : v = 0 := by
  fun_induction encode v with
  | case1 v hv =>
    have hbyte : UInt8.ofNat v = 0 := by simpa using h
    have := congrArg UInt8.toNat hbyte
    simp [UInt8.toNat_ofNat'] at this
    omega
  | case2 v hv ih =>
    -- the rest of the groups stands for a number that is not zero
    obtain ⟨b, l, hcons⟩ := List.exists_cons_of_ne_nil (spelling_encode (v / 128)).ne_nil
    rw [hcons, List.getLast?_cons_cons, ← hcons] at h
    have := ih h
    omega

theorem minimal_encode (hv : v ≤ U64.max) : Minimal (encode v) := by
  refine ⟨?_, (payload_encode v).symm ▸ hv⟩
  by_cases hsmall : v < 128
  · exact .inl (by rw [encode, if_pos hsmall]; rfl)
  · exact .inr fun h => hsmall (by rw [getLast?_encode h]; decide)

/-- A spelling whose last group is used is the one that is written. -/
theorem Spelling.encode_payload (h : Spelling l)
    (hlast : l.length = 1 ∨ l.getLast? ≠ some 0) : encode (payload l) = l := by
  induction h with
  | @last b hb =>
    have hpayload : payload [b] = b.toNat := by simp [payload]; omega
    rw [hpayload, encode, if_pos hb, UInt8.ofNat_toNat]
  | @more b l hb hl ih =>
    have hlast' : l.getLast? ≠ some 0 := by
      obtain ⟨c, l, rfl⟩ := List.exists_cons_of_ne_nil hl.ne_nil
      simpa using hlast
    have hl := ih (.inr hlast')
    have hpos : payload l ≠ 0 := by
      intro hzero
      rw [hzero] at hl
      exact hlast' (hl ▸ by rw [encode]; rfl)
    have hbyte := b.toNat_lt
    have hmod : payload (b :: l) % 128 + 128 = b.toNat := by simp [payload]; omega
    have hdiv : payload (b :: l) / 128 = payload l := by simp [payload]; omega
    rw [encode, if_neg (by simp [payload]; omega), hmod, hdiv, hl, UInt8.ofNat_toNat]

/-! ### The reader -/

/-- A group above the others, less the bits that are shifted out. -/
theorem or_group {result shift : ℕ} (g : ℕ) (hshift : shift ≤ 64) (hresult : result < 2 ^ shift) :
    result ||| U64.wrap (g <<< shift) = U64.wrap (result + g * 2 ^ shift) := by
  have hpow : U64.max + 1 = 2 ^ shift * 2 ^ (64 - shift) := by
    rw [← Nat.pow_add, Nat.add_sub_cancel' hshift]; rfl
  rw [U64.wrap, U64.wrap, hpow, Nat.shiftLeft_eq, Nat.mul_comm g, Nat.mul_mod_mul_left,
    Nat.or_comm, ← Nat.two_pow_add_eq_or_of_lt hresult, Nat.mod_mul, Nat.add_mul_mod_self_left,
    Nat.add_mul_div_left _ _ (Nat.two_pow_pos shift), Nat.mod_eq_of_lt hresult,
    Nat.div_eq_of_lt hresult, Nat.zero_add, Nat.add_comm]

/-- A spelling that is short enough is read to its end. -/
theorem Spelling.decodeFrom_append (h : Spelling l) (result shift : ℕ)
    (hresult : result < 2 ^ shift) (hlen : shift + 7 * l.length ≤ 70) (rest : List UInt8) :
    decodeFrom result shift (l ++ rest) =
      .ok (U64.wrap (result + payload l * 2 ^ shift), rest) := by
  induction h generalizing result shift with
  | @last b hb =>
    have hgroup := or_group (b.toNat % 128) (by simp at hlen; omega) hresult
    simp [decodeFrom, hb, hgroup, payload]
  | @more b l hb hl ih =>
    have hpos := List.length_pos_iff.mpr hl.ne_nil
    rw [List.length_cons] at hlen
    have hgroup := or_group (b.toNat % 128) (by omega) hresult
    -- below the last group no bit is lost
    have hbound : b.toNat % 128 * 2 ^ shift + result < 2 ^ (shift + 7) := by
      have : (b.toNat % 128 + 1) * 2 ^ shift ≤ 128 * 2 ^ shift :=
        Nat.mul_le_mul_right _ (by omega)
      rw [Nat.add_one_mul] at this
      rw [Nat.pow_add]
      omega
    have hfits : 2 ^ (shift + 7) ≤ 2 ^ 63 := Nat.pow_le_pow_right (by omega) (by omega)
    have hwrap : U64.wrap (result + b.toNat % 128 * 2 ^ shift) =
        result + b.toNat % 128 * 2 ^ shift :=
      Nat.mod_eq_of_lt (by unfold U64.max; omega)
    have hnext := ih (result + b.toNat % 128 * 2 ^ shift) (shift + 7) (by omega) (by omega)
    have hvalue : result + b.toNat % 128 * 2 ^ shift + payload l * 2 ^ (shift + 7) =
        result + payload (b :: l) * 2 ^ shift := by
      rw [payload, Nat.pow_add]; ring
    simp only [List.cons_append, decodeFrom, if_neg hb, if_neg (by omega : ¬ 64 ≤ shift + 7),
      hgroup, hwrap, hnext, hvalue]

theorem exists_spelling_of_decodeFrom {data rest : List UInt8} {result shift : ℕ}
    (hshift : shift ≤ 63) (h : decodeFrom result shift data = .ok (v, rest)) :
    ∃ l, Spelling l ∧ data = l ++ rest ∧ shift + 7 * l.length ≤ 70 := by
  induction data generalizing result shift with
  | nil => cases h
  | cons b data ih =>
    simp only [decodeFrom] at h
    split_ifs at h with hb hover
    · obtain ⟨-, rfl⟩ := Prod.mk.inj (Except.ok.inj h)
      exact ⟨[b], .last hb, rfl, by simp; omega⟩
    · obtain ⟨l, hl, rfl, hlen⟩ := ih (by omega) h
      exact ⟨b :: l, .more hb hl, rfl, by simp; omega⟩

theorem length_encode_le {k : ℕ} (hv : v < 128 ^ (k + 1)) : (encode v).length ≤ k + 1 := by
  induction k generalizing v with
  | zero => rw [encode, if_pos (by omega)]; rfl
  | succ k ih =>
    rw [encode]
    split
    · simp
    · have := ih (v := v / 128) (Nat.div_lt_of_lt_mul (by rw [Nat.pow_succ] at hv; omega))
      simpa using this

/-- **What was written is read back.** -/
theorem decode_encode (hv : v ≤ U64.max) (rest : List UInt8) :
    decode (encode v ++ rest) = .ok (v, rest) := by
  have hlen : (encode v).length ≤ 10 := length_encode_le (by unfold U64.max at hv; omega)
  have hread := (spelling_encode v).decodeFrom_append 0 0 (by omega) (by omega) rest
  rw [decode, hread, payload_encode, Nat.pow_zero, Nat.mul_one, Nat.zero_add, U64.wrap,
    Nat.mod_eq_of_lt (by omega)]

/-- **The bytes that were read are what the writer writes if and only if they are a minimal
spelling.** -/
theorem encode_iff_of_decode {data rest : List UInt8} (h : decode data = .ok (v, rest)) :
    v ≤ U64.max ∧ ∃ bytes, data = bytes ++ rest ∧ span data = bytes ∧
      (encode v = bytes ↔ Minimal bytes) := by
  obtain ⟨l, hl, rfl, hlen⟩ := exists_spelling_of_decodeFrom (by omega) h
  rw [decode, hl.decodeFrom_append 0 0 (by omega) hlen] at h
  obtain ⟨hv, -⟩ := Prod.mk.inj (Except.ok.inj h)
  simp only [Nat.zero_add, Nat.pow_zero, Nat.mul_one] at hv
  have hle : v ≤ U64.max := hv ▸ Nat.le_of_lt_succ (Nat.mod_lt _ (Nat.succ_pos _))
  refine ⟨hle, l, rfl, hl.span_append rest, fun heq => heq ▸ minimal_encode hle, fun hmin => ?_⟩
  have hpayload : payload l = v := by
    rw [← hv, U64.wrap, Nat.mod_eq_of_lt (Nat.lt_succ_of_le hmin.2)]
  rw [← hpayload, hl.encode_payload hmin.1]

end Varint
