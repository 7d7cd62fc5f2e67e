import ElaraMesh.Smt.Bytes
import ElaraMesh.Lib.Sha3

/-!
# The hash function

An empty subtree is the hash of the empty string at every level.  SHA3-256 comes from outside
the crate and is a parameter of the development.

## Main definitions

* `Sha3` — the hash function.
* `guardedSha3` — SHA3-256 for evaluation; nothing but the empty string has its hash.
-/

namespace ElaraMesh
namespace Smt

/-- The SHA3-256 of the hashing crate. -/
class Sha3 where
  sha3_256 : List UInt8 → Bytes32

export Sha3 (sha3_256)

/-- The value of an empty subtree, the SHA3-256 of the empty string. -/
def emptyHash : Bytes32 where
  data := [
    0xa7, 0xff, 0xc6, 0xf8, 0xbf, 0x1e, 0xd7, 0x66,
    0x51, 0xc1, 0x47, 0x56, 0xa0, 0x61, 0xd6, 0x62,
    0xf5, 0x80, 0xff, 0x4d, 0xe4, 0x3b, 0x49, 0xfa,
    0x82, 0xd8, 0x0a, 0x4b, 0x80, 0xf8, 0x43, 0x4a]
  size_eq := rfl

/-! ### A hash function to evaluate -/

def digest (bs : List UInt8) : Bytes32 := ⟨Keccak.sha3_256 bs, Keccak.length_sha3_256 bs⟩

/-- The digest of the empty string is the value of an empty subtree. -/
example : digest [] = emptyHash := by decide +kernel

/-- SHA3-256, except that another preimage of the empty value would be sent
elsewhere. -/
@[reducible] def guardedSha3 : Sha3 where
  sha3_256 bs := if bs ≠ [] ∧ digest bs = emptyHash then Bytes32.zero else digest bs

theorem guardedSha3_ne_empty {bs : List UInt8} (h : bs ≠ []) :
    guardedSha3.sha3_256 bs ≠ emptyHash := by
  change (if bs ≠ [] ∧ digest bs = emptyHash then Bytes32.zero else digest bs) ≠ emptyHash
  by_cases hd : digest bs = emptyHash
  · rw [if_pos ⟨h, hd⟩]
    decide
  · rwa [if_neg fun hc => hd hc.2]

/-- Hashes of strings whose digests differ from each other and from that of the empty string. -/
theorem number_eq_of_guardedSha3_eq {bs bs' : List UInt8}
    (hbs : Keccak.number bs ≠ Keccak.number []) (hbs' : Keccak.number bs' ≠ Keccak.number [])
    (h : guardedSha3.sha3_256 bs = guardedSha3.sha3_256 bs') :
    Keccak.number bs = Keccak.number bs' := by
  have hempty : digest [] = emptyHash := by decide +kernel
  have hguard : ∀ l, Keccak.number l ≠ Keccak.number [] → guardedSha3.sha3_256 l = digest l := by
    intro l hl
    refine if_neg fun hc => hl (Keccak.number_eq_of_sha3_256_eq ?_)
    exact congrArg Bytes32.data (hc.2.trans hempty.symm)
  rw [hguard bs hbs, hguard bs' hbs'] at h
  exact Keccak.number_eq_of_sha3_256_eq (congrArg Bytes32.data h)

end Smt
end ElaraMesh
