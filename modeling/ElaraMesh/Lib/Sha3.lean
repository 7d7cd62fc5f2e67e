import Mathlib.Algebra.GroupWithZero.Nat
import Mathlib.Data.List.Nodup
import Mathlib.Data.Nat.Notation

/-!
# SHA3-256

The hash function of FIPS 202 on byte strings, for evaluation.  The state of the
permutation is kept as one number of 1600 bits, lane `(x, y)` at bits
`64 * (x + 5 * y)` onwards, so that a step of a round is a few operations on
numbers.  The operations are written as functions of `Nat`, which the kernel
evaluates at once on numerals.

## Main definitions

* `Keccak.permute` — the permutation Keccak-f[1600].
* `Keccak.sha3_256` — the digest of a byte string.
* `Keccak.number`, `Keccak.apart` — digests as numbers, and a fast test that they differ.
-/

namespace Keccak

def laneOnes : ℕ := 0x10000000000000001000000000000000100000000000000010000000000000001

def planeOnes : ℕ := 2 ^ 1280 + 2 ^ 960 + 2 ^ 640 + 2 ^ 320 + 1

/-- The parities of the columns, a plane. -/
def parity (s : ℕ) : ℕ :=
  Nat.mod (Nat.xor s (Nat.xor (Nat.shiftRight s 320) (Nat.xor (Nat.shiftRight s 640)
    (Nat.xor (Nat.shiftRight s 960) (Nat.shiftRight s 1280))))) (Nat.pow 2 320)

/-- Rotate every lane of a plane by one bit. -/
def rotatePlane (c : ℕ) : ℕ :=
  Nat.lor (Nat.shiftLeft (Nat.land c (Nat.mul laneOnes 0x7fffffffffffffff)) 1)
    (Nat.land (Nat.shiftRight c 63) laneOnes)

/-- What the first step adds to every plane: the parities of the column before
and, rotated, of the column after. -/
def thetaEffect (c : ℕ) : ℕ :=
  Nat.xor (Nat.mod (Nat.lor (Nat.shiftLeft c 64) (Nat.shiftRight c 256)) (Nat.pow 2 320))
    (rotatePlane (Nat.lor (Nat.shiftRight c 64) (Nat.mod (Nat.shiftLeft c 256) (Nat.pow 2 320))))

/-- Add to each bit the parities of two columns. -/
def theta (s : ℕ) : ℕ := Nat.xor s (Nat.mul (thetaEffect (parity s)) planeOnes)

/-- Rotate a lane, from the number that shifts it. -/
def wrap (t : ℕ) : ℕ := Nat.add (Nat.mod t 0x10000000000000000) (Nat.div t 0x10000000000000000)

/-- Rotate the lane at a bit position and put it below those placed already. -/
def place (s pos rotation placed : ℕ) : ℕ :=
  Nat.add (wrap (Nat.shiftLeft (Nat.mod (Nat.shiftRight s pos) 0x10000000000000000) rotation))
    (Nat.shiftLeft placed 64)

/-- Rotate the lanes and move them. -/
def rhoPi (s : ℕ) : ℕ :=
  place s 0 0 <| place s 384 44 <| place s 768 43 <| place s 1152 21 <| place s 1536 14 <|
  place s 192 28 <| place s 576 20 <| place s 640 3 <| place s 1024 45 <| place s 1408 61 <|
  place s 64 1 <| place s 448 6 <| place s 832 25 <| place s 1216 8 <| place s 1280 18 <|
  place s 256 27 <| place s 320 36 <| place s 704 10 <| place s 1088 15 <| place s 1472 56 <|
  place s 128 62 <| place s 512 55 <| place s 896 39 <| place s 960 41 <| place s 1344 2 0

/-- In every plane, lane `x` becomes lane `x + 1`. -/
def turn (s : ℕ) : ℕ :=
  Nat.lor (Nat.land (Nat.shiftRight s 64) (Nat.mul (Nat.sub (Nat.pow 2 256) 1) planeOnes))
    (Nat.shiftLeft (Nat.land s (Nat.mul 0xffffffffffffffff planeOnes)) 256)

/-- The step that is not linear. -/
def chi (s : ℕ) : ℕ :=
  Nat.xor s (Nat.land (Nat.xor (turn s) (Nat.sub (Nat.pow 2 1600) 1)) (turn (turn s)))

/-- The constants added to lane 0, one for each round. -/
def roundConstants : List ℕ := [
  0x0000000000000001, 0x0000000000008082, 0x800000000000808A, 0x8000000080008000,
  0x000000000000808B, 0x0000000080000001, 0x8000000080008081, 0x8000000000008009,
  0x000000000000008A, 0x0000000000000088, 0x0000000080008009, 0x000000008000000A,
  0x000000008000808B, 0x800000000000008B, 0x8000000000008089, 0x8000000000008003,
  0x8000000000008002, 0x8000000000000080, 0x000000000000800A, 0x800000008000000A,
  0x8000000080008081, 0x8000000000008080, 0x0000000080000001, 0x8000000080008008]

def permute (s : ℕ) : ℕ :=
  roundConstants.foldl (fun s rc => Nat.xor (chi (rhoPi (theta s))) rc) s

/-- Bytes as a number, the lowest first. -/
def ofBytes : List UInt8 → ℕ
  | [] => 0
  | b :: bs => Nat.add b.toNat (Nat.mul 256 (ofBytes bs))

/-- The lowest `n` bytes of a number. -/
def toBytes : ℕ → ℕ → List UInt8
  | 0, _ => []
  | n + 1, a => UInt8.ofNat a :: toBytes n (Nat.shiftRight a 8)

/-- The last block of a message: fewer than 136 bytes, the two domain bits of SHA-3
and the padding. -/
def lastBlock (bs : List UInt8) : ℕ :=
  Nat.add (ofBytes bs) (Nat.add (Nat.shiftLeft 6 (Nat.mul 8 bs.length)) (Nat.shiftLeft 1 1087))

/-- Absorb `n` full blocks and the last one. -/
def absorb : ℕ → ℕ → List UInt8 → ℕ
  | 0, s, bs => permute (Nat.xor s (lastBlock bs))
  | n + 1, s, bs => absorb n (permute (Nat.xor s (ofBytes (bs.take 136)))) (bs.drop 136)

def sha3_256 (bs : List UInt8) : List UInt8 := toBytes 32 (absorb (bs.length / 136) 0 bs)

theorem length_toBytes (n a : ℕ) : (toBytes n a).length = n := by
  induction n generalizing a with
  | zero => rfl
  | succ n ih => rw [toBytes, List.length_cons, ih]

theorem length_sha3_256 (bs : List UInt8) : (sha3_256 bs).length = 32 := length_toBytes _ _

/-! ### Digests that differ -/

/-- The number that the digest has in its bytes. -/
def number (bs : List UInt8) : ℕ := Nat.mod (absorb (bs.length / 136) 0 bs) (Nat.pow 256 32)

theorem ofBytes_toBytes (n a : ℕ) : ofBytes (toBytes n a) = a % 256 ^ n := by
  induction n generalizing a with
  | zero => exact (Nat.mod_one a).symm
  | succ n ih =>
    have hbyte : (UInt8.ofNat a).toNat = a % 256 := UInt8.toNat_ofNat' ..
    have hshift : Nat.shiftRight a 8 = a / 256 := Nat.shiftRight_eq_div_pow a 8
    rw [toBytes, ofBytes, ih, hbyte, hshift, Nat.pow_succ']
    exact (Nat.mod_mul).symm

theorem number_eq_of_sha3_256_eq {bs bs' : List UInt8} (h : sha3_256 bs = sha3_256 bs') :
    number bs = number bs' := by
  have hbytes := congrArg ofBytes h
  rwa [sha3_256, sha3_256, ofBytes_toBytes, ofBytes_toBytes] at hbytes

/-- Do the numbers differ?  They are parted by one bit after the other. -/
def apart : ℕ → List ℕ → Bool
  | 0, l => l.length ≤ 1
  | k + 1, l =>
    match l with
    | [] => true
    | [_] => true
    | l => apart k (l.filter fun n => Nat.beq (Nat.mod (Nat.shiftRight n k) 2) 0) &&
        apart k (l.filter fun n => Nat.beq (Nat.mod (Nat.shiftRight n k) 2) 1)

theorem nodup_of_apart {k : ℕ} {l : List ℕ} (h : apart k l = true) : l.Nodup := by
  induction k generalizing l with
  | zero =>
    have hlength : l.length ≤ 1 := of_decide_eq_true h
    cases l with
    | nil => exact List.nodup_nil
    | cons a l =>
      rw [List.eq_nil_of_length_eq_zero (Nat.le_zero.mp (Nat.le_of_succ_le_succ hlength))]
      exact List.nodup_singleton a
  | succ k ih =>
    unfold apart at h
    split at h
    · exact List.nodup_nil
    · exact List.nodup_singleton _
    · obtain ⟨hzero, hone⟩ := Bool.and_eq_true_iff.mp h
      refine List.nodup_iff_count_le_one.mpr fun a => ?_
      rcases Nat.mod_two_eq_zero_or_one (Nat.shiftRight a k) with hbit | hbit
      · rw [← List.count_filter (p := fun n => Nat.beq (Nat.mod (Nat.shiftRight n k) 2) 0)
          (Nat.beq_eq.symm.mp hbit)]
        exact List.nodup_iff_count_le_one.mp (ih hzero) a
      · rw [← List.count_filter (p := fun n => Nat.beq (Nat.mod (Nat.shiftRight n k) 2) 1)
          (Nat.beq_eq.symm.mp hbit)]
        exact List.nodup_iff_count_le_one.mp (ih hone) a
end Keccak
