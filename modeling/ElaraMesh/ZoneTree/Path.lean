import ElaraMesh.Lib.Framing
import ElaraMesh.Smt.Bytes

/-!
# 64-bit paths of the zone tree

A leaf of the tree of a zone is placed by its first eight bytes, read as one number.  A node
is kept under its depth and the path with the bits below the depth cleared.  The operations
are given as the code computes them on 64-bit words and then described by the string of bits
a path stands for.

## Main results

* `row_take` — the row of a position on a path; `row_injective`.
* `take_left`, `take_right` — the children of a position.
* `bits_leafToPath_inj` — leaves share a place if they share their first eight bytes.
-/

namespace ElaraMesh.ZoneTree

open Smt (Bytes32)

/-- The place of a leaf: its first eight bytes, the highest first. -/
def leafToPath (leafHash : Bytes32) : UInt64 :=
  UInt64.ofNat (Framing.ofBigEndian (leafHash.data.take 8))

/-- The bit at a depth: to the right if it is set. -/
def pathBit (path : UInt64) (depth : ℕ) : Bool :=
  (path >>> UInt64.ofNat (63 - depth)) &&& 1 == 1

/-- The top `depth` bits of a path. -/
def pathMask (path : UInt64) (depth : ℕ) : UInt64 :=
  if depth ≥ 64 then path
  else if depth = 0 then 0
  else path &&& ~~~((1 <<< UInt64.ofNat (64 - depth)) - 1)

/-- The path with the bit at a depth set. -/
def rightPath (parentPath : UInt64) (depth : ℕ) : UInt64 :=
  parentPath ||| (1 <<< UInt64.ofNat (63 - depth))

/-! ### Bits of a word -/

theorem word_ext {p q : UInt64} (h : ∀ k < 64, p.toNat.testBit k = q.toNat.testBit k) : p = q := by
  rw [← UInt64.toNat_inj]
  apply Nat.eq_of_testBit_eq
  intro k
  by_cases hk : k < 64
  · exact h k hk
  · have hpow : 2 ^ 64 ≤ 2 ^ k := Nat.pow_le_pow_right (by omega) (by omega)
    rw [Nat.testBit_lt_two_pow (lt_of_lt_of_le p.toNat_lt hpow),
      Nat.testBit_lt_two_pow (lt_of_lt_of_le q.toNat_lt hpow)]

theorem pathBit_eq (p : UInt64) (d : ℕ) : pathBit p d = p.toNat.testBit (63 - d) := by
  have hshift : (UInt64.ofNat (63 - d)).toNat % 64 = 63 - d := by
    rw [UInt64.toNat_ofNat_of_lt' (show 63 - d < 2 ^ 64 by omega)]
    omega
  rw [pathBit, Bool.eq_iff_iff, beq_iff_eq, ← UInt64.toNat_inj, UInt64.toNat_and,
    UInt64.toNat_shiftRight, hshift, Nat.testBit_eq_decide_div_mod_eq,
    Nat.shiftRight_eq_div_pow]
  simp [Nat.and_one_is_mod]

theorem testBit_topMask : ∀ d < 64, 0 < d → ∀ k < 64,
    (~~~(((1 : UInt64) <<< UInt64.ofNat (64 - d)) - 1)).toNat.testBit k =
      decide (64 ≤ d + k) := by
  decide +kernel

theorem testBit_oneBit : ∀ d < 64, ∀ k < 64,
    ((1 : UInt64) <<< UInt64.ofNat (63 - d)).toNat.testBit k = decide (d + k = 63) := by
  decide +kernel

variable {k d i : ℕ}

theorem testBit_pathMask (p : UInt64) (d : ℕ) (hk : k < 64) :
    (pathMask p d).toNat.testBit k = (p.toNat.testBit k && decide (64 ≤ d + k)) := by
  unfold pathMask
  split
  · next h => simp [show 64 ≤ d + k by omega]
  · split
    · next h => simp [show ¬ 64 ≤ d + k by omega]
    · rw [UInt64.toNat_and, Nat.testBit_and, testBit_topMask d (by omega) (by omega) k hk]

theorem testBit_rightPath (p : UInt64) (hd : d < 64) (hk : k < 64) :
    (rightPath p d).toNat.testBit k = (p.toNat.testBit k || decide (d + k = 63)) := by
  rw [rightPath, UInt64.toNat_or, Nat.testBit_or, testBit_oneBit d hd k hk]

/-! ### The bit string of a path -/

/-- The 64 bits of a path, the highest first. -/
def bits (p : UInt64) : List Bool := (List.range 64).map (pathBit p)

@[simp] theorem length_bits (p : UInt64) : (bits p).length = 64 := by simp [bits]

theorem getElem?_bits (p : UInt64) (hi : i < 64) : (bits p)[i]? = some (pathBit p i) := by
  simp [bits, List.getElem?_map, List.getElem?_range hi]

theorem getD_bits (p : UInt64) (hi : i < 64) : (bits p).getD i false = pathBit p i := by
  rw [List.getD_eq_getElem?_getD, getElem?_bits p hi]
  rfl

theorem bits_injective : Function.Injective bits := by
  intro p q h
  apply word_ext
  intro k hk
  have hbit := congrArg (fun l : List Bool => l[63 - k]?) h
  simp only [getElem?_bits _ (show 63 - k < 64 by omega), Option.some.injEq, pathBit_eq] at hbit
  rwa [show 63 - (63 - k) = k by omega] at hbit

theorem take_bits_succ (p : UInt64) (hd : d < 64) :
    (bits p).take (d + 1) = (bits p).take d ++ [pathBit p d] := by
  rw [HashTree.take_succ_eq (by simpa using hd), getD_bits p hd]

theorem take_bits_congr {p q : UInt64} (h : ∀ i < d, i < 64 → pathBit p i = pathBit q i) :
    (bits p).take d = (bits q).take d := by
  apply List.ext_getElem?
  intro i
  rw [List.getElem?_take, List.getElem?_take]
  split
  · next hi =>
    rcases Nat.lt_or_ge i 64 with hlt | hge
    · rw [getElem?_bits p hlt, getElem?_bits q hlt, h i hi hlt]
    · rw [List.getElem?_eq_none (by simpa using hge), List.getElem?_eq_none (by simpa using hge)]
  · rfl

theorem pathBit_pathMask (p : UInt64) (hi : i < 64) :
    pathBit (pathMask p d) i = (pathBit p i && decide (i < d)) := by
  rw [pathBit_eq, testBit_pathMask p d (by omega), pathBit_eq]
  congr 2
  exact propext ⟨fun h => by omega, fun h => by omega⟩

theorem take_pathMask (p : UInt64) (d : ℕ) :
    (bits (pathMask p d)).take d = (bits p).take d := by
  apply take_bits_congr
  intro i hi hlt
  simp [pathBit_pathMask p hlt, hi]

/-- The left child of the position at depth `d` on a path. -/
theorem take_left (p : UInt64) (hd : d < 64) :
    (bits (pathMask p d)).take (d + 1) = (bits p).take d ++ [false] := by
  rw [take_bits_succ _ hd, pathBit_pathMask p hd, take_pathMask]
  simp

/-- The right child of the position at depth `d` on a path. -/
theorem take_right (p : UInt64) (hd : d < 64) :
    (bits (rightPath (pathMask p d) d)).take (d + 1) = (bits p).take d ++ [true] := by
  rw [take_bits_succ _ hd]
  congr 1
  · apply take_bits_congr
    intro i hi hlt
    rw [pathBit_eq, testBit_rightPath _ hd (by omega), ← pathBit_eq, pathBit_pathMask p hlt]
    simp [hi, show ¬ d + (63 - i) = 63 by omega]
  · rw [pathBit_eq, testBit_rightPath _ hd (by omega)]
    simp [show d + (63 - d) = 63 by omega]

/-! ### Rows -/

/-- The path with the given bits, filled up with zeros. -/
def pack (π : List Bool) : UInt64 :=
  UInt64.ofNat (Nat.ofBits fun i : Fin 64 => π.getD (63 - i) false)

/-- What the node at a position is kept under: its depth and its path. -/
def row (π : List Bool) : ℕ × UInt64 := (π.length, pack π)

theorem testBit_pack (π : List Bool) (hk : k < 64) :
    (pack π).toNat.testBit k = π.getD (63 - k) false := by
  rw [pack, UInt64.toNat_ofNat_of_lt' (Nat.ofBits_lt_two_pow _), Nat.testBit_ofBits_lt _ k hk]

theorem row_take (p : UInt64) (hd : d ≤ 64) :
    row ((bits p).take d) = (d, pathMask p d) := by
  refine Prod.ext (by simp [row]; omega) ?_
  apply word_ext
  intro k hk
  rw [row, testBit_pack _ hk, testBit_pathMask p d hk, List.getD_eq_getElem?_getD,
    List.getElem?_take]
  split
  · next h =>
    rw [getElem?_bits p (by omega), Option.getD_some, pathBit_eq, show 63 - (63 - k) = k by omega]
    simp [show 64 ≤ d + k by omega]
  · next h => simp [show ¬ 64 ≤ d + k by omega]

/-- Every position lies on the path that is filled up with zeros. -/
theorem take_bits_pack {π : List Bool} (hπ : π.length ≤ 64) : (bits (pack π)).take π.length = π := by
  apply List.ext_getElem?
  intro i
  rw [List.getElem?_take]
  split
  · next hi =>
    rw [getElem?_bits _ (by omega), pathBit_eq, testBit_pack _ (by omega),
      show 63 - (63 - i) = i by omega, List.getD_eq_getElem?_getD, List.getElem?_eq_getElem hi]
    rfl
  · next hi => rw [List.getElem?_eq_none (by omega)]

/-- Nodes at different positions are kept apart. -/
theorem row_injective {π ρ : List Bool} (hπ : π.length ≤ 64) (hρ : ρ.length ≤ 64)
    (h : row π = row ρ) : π = ρ := by
  obtain ⟨hlen, hpack⟩ := Prod.mk.inj h
  rw [← take_bits_pack hπ, hpack, hlen, take_bits_pack hρ]

/-! ### Leaves -/

/-- Leaves share a place exactly if they share their first eight bytes. -/
theorem bits_leafToPath_inj {l l' : Bytes32} :
    bits (leafToPath l) = bits (leafToPath l') ↔ l.data.take 8 = l'.data.take 8 := by
  have hlen : ∀ b : Bytes32, (b.data.take 8).length = 8 := fun b => by simp [b.size_eq]
  have hlt : ∀ b : Bytes32, Framing.ofBigEndian (b.data.take 8) < UInt64.size := fun b =>
    (Framing.ofBigEndian_lt _).trans_eq (by rw [hlen b]; rfl)
  rw [bits_injective.eq_iff, leafToPath, leafToPath, ← UInt64.toNat_inj,
    UInt64.toNat_ofNat_of_lt' (hlt l), UInt64.toNat_ofNat_of_lt' (hlt l')]
  refine ⟨fun h => ?_, fun h => by rw [h]⟩
  rw [← Framing.bigEndian_ofBigEndian (l.data.take 8),
    ← Framing.bigEndian_ofBigEndian (l'.data.take 8), hlen, hlen, h]

end ElaraMesh.ZoneTree
