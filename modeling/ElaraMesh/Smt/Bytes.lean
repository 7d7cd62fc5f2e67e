import ElaraMesh.Lib.BitTrie
import Mathlib.Data.Nat.Bitwise
import Mathlib.Data.List.Range
import Mathlib.Data.List.Lex

/-!
# Arrays of 32 bytes

Keys, hashes and paths of the sparse Merkle tree are arrays of 32 bytes, ordered
as the code compares them.

## Main definitions

* `Bytes32`, `Bytes32.modify`.
-/

namespace ElaraMesh
namespace Smt

@[ext] structure Bytes32 where
  data : List UInt8
  size_eq : data.length = 32
  deriving DecidableEq

instance : LinearOrder Bytes32 :=
  LinearOrder.lift' (fun b => b.data.map UInt8.toNat) fun _ _ h =>
    Bytes32.ext (List.map_injective_iff.mpr (fun _ _ => UInt8.toNat_inj.mp) h)

namespace Bytes32

/-- Change the byte at a position. -/
def modify (b : Bytes32) (i : ℕ) (f : UInt8 → UInt8) : Bytes32 where
  data := b.data.modify i f
  size_eq := by rw [List.length_modify, b.size_eq]

def zero : Bytes32 := ⟨List.replicate 32 0, rfl⟩

/-- One byte in front of 31 equal ones. -/
def filled (first rest : UInt8) : Bytes32 := ⟨first :: List.replicate 31 rest, rfl⟩

end Bytes32

end Smt
end ElaraMesh
