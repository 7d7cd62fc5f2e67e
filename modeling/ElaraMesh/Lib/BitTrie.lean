import Mathlib.Data.List.Basic
import Mathlib.Data.List.Infix
import Mathlib.Logic.Function.Basic

/-!
# Hash trees over bit strings

A tree of depth `n` has a leaf for every bit string of length `n`; a position of
the tree is a bit string of length at most `n`, the prefix its leaves share.  The
hash of a position is that of its two children, except that two empty children
make an empty parent.

## Main results

* `HashTree.sub_eq_empty_iff` — a position hashes to the empty value exactly when
  no leaf below it is set.
-/

/-- A tree of hashes: its depth, the hash of a node and the value of an empty
subtree. -/
structure HashTree (H : Type*) where
  depth : ℕ
  empty : H
  node : H → H → H

namespace HashTree

variable {H : Type*} (T : HashTree H)

/-- No node hashes to the value of the empty tree. -/
def Proper : Prop := ∀ l r, T.node l r ≠ T.empty

/-! ### The hash above a lone leaf -/

/-- One level up through an empty sibling, on the side of `b`. -/
def lift (b : Bool) (a : H) : H := if b then T.node T.empty a else T.node a T.empty

variable {T}

/-! ### Occupied and shared positions -/

theorem take_succ_eq {x : List Bool} {d : ℕ} (hd : d < x.length) :
    x.take (d + 1) = x.take d ++ [x.getD d false] := by
  rw [List.take_add_one, List.getD_eq_getElem?_getD, List.getElem?_eq_getElem hd]
  rfl

variable (T)

/-- The leaf `x` is set. -/
def Resident (f : List Bool → H) (x : List Bool) : Prop := x.length = T.depth ∧ f x ≠ T.empty

/-- Some leaf below the position is set. -/
def Occupied (f : List Bool → H) (π : List Bool) : Prop := ∃ x, T.Resident f x ∧ π <+: x

variable {T} {f g : List Bool → H} {π ρ x y : List Bool}

theorem Occupied.of_isPrefix (ho : T.Occupied f π) (hρ : ρ <+: π) : T.Occupied f ρ := by
  obtain ⟨x, hx, hπ⟩ := ho
  exact ⟨x, hx, hρ.trans hπ⟩

theorem Occupied.length_le (ho : T.Occupied f π) : π.length ≤ T.depth := by
  obtain ⟨x, hx, hπ⟩ := ho
  exact hx.1 ▸ hπ.length_le

/-! ### The hash of a position -/

variable [DecidableEq H] (T)

/-- The hash of a node from its children: two empty children make it empty. -/
def combine (l r : H) : H := if l = T.empty ∧ r = T.empty then T.empty else T.node l r

@[simp] theorem combine_empty : T.combine T.empty T.empty = T.empty := by simp [combine]

theorem combine_of_left {l : H} (hl : l ≠ T.empty) (r : H) : T.combine l r = T.node l r := by
  simp [combine, hl]

theorem combine_of_right (l : H) {r : H} (hr : r ≠ T.empty) : T.combine l r = T.node l r := by
  simp [combine, hr]

variable {T}

theorem combine_eq_empty_iff (hp : T.Proper) {l r : H} :
    T.combine l r = T.empty ↔ l = T.empty ∧ r = T.empty := by
  unfold combine
  split
  · next hlr => simp [hlr]
  · next hlr => simp [hlr, hp l r]

variable (T)

/-- The hash of the position `π`, `k` levels above the leaves. -/
def hash (f : List Bool → H) : ℕ → List Bool → H
  | 0, π => f π
  | k + 1, π => T.combine (hash f k (π ++ [false])) (hash f k (π ++ [true]))

@[simp] theorem hash_zero (f : List Bool → H) (π : List Bool) : T.hash f 0 π = f π := rfl

theorem hash_succ (f : List Bool → H) (k : ℕ) (π : List Bool) :
    T.hash f (k + 1) π
      = T.combine (T.hash f k (π ++ [false])) (T.hash f k (π ++ [true])) := rfl

/-- The hash depends only on the leaves below the position. -/
theorem hash_congr {f g : List Bool → H} : ∀ {k : ℕ} {π : List Bool},
    (∀ y, y.length = k → f (π ++ y) = g (π ++ y)) → T.hash f k π = T.hash g k π := by
  intro k
  induction k with
  | zero =>
    intro π hfg
    simpa using hfg [] rfl
  | succ k ih =>
    intro π hfg
    have hc : ∀ b, T.hash f k (π ++ [b]) = T.hash g k (π ++ [b]) := by
      intro b
      apply ih
      intro y hy
      simpa using hfg (b :: y) (by simp [hy])
    rw [hash_succ, hash_succ, hc, hc]

variable {T}

/-- **A position is empty exactly when no leaf below it is set.** -/
theorem hash_ne_empty_iff (hp : T.Proper) {f : List Bool → H} : ∀ {k : ℕ} {π : List Bool},
    T.hash f k π ≠ T.empty ↔ ∃ y, y.length = k ∧ f (π ++ y) ≠ T.empty := by
  intro k
  induction k with
  | zero =>
    intro π
    constructor
    · intro hne
      exact ⟨[], rfl, by simpa using hne⟩
    · rintro ⟨y, hy, hne⟩
      obtain rfl := List.eq_nil_of_length_eq_zero hy
      simpa using hne
  | succ k ih =>
    intro π
    rw [hash_succ, Ne, combine_eq_empty_iff hp, not_and_or, ← Ne, ← Ne, ih, ih]
    constructor
    · rintro (⟨y, hy, hne⟩ | ⟨y, hy, hne⟩)
      · exact ⟨false :: y, by simp [hy], by simpa using hne⟩
      · exact ⟨true :: y, by simp [hy], by simpa using hne⟩
    · rintro ⟨y, hy, hne⟩
      cases y with
      | nil => simp at hy
      | cons b y =>
        have hy' : y.length = k := by simpa using hy
        cases b
        · exact Or.inl ⟨y, hy', by simpa using hne⟩
        · exact Or.inr ⟨y, hy', by simpa using hne⟩

/-- A node with one empty child, the other on the side of `b`. -/
theorem combine_lift {b : Bool} {l r : H} {a : H} (ha : a ≠ T.empty)
    (hb : (if b then r else l) = a) (hnb : (if b then l else r) = T.empty) :
    T.combine l r = T.lift b a := by
  cases b with
  | false =>
    simp only [Bool.false_eq_true, if_false] at hb hnb
    rw [hb, hnb, T.combine_of_left ha]
    rfl
  | true =>
    simp only [if_true] at hb hnb
    rw [hb, hnb, T.combine_of_right _ ha]
    rfl

variable (T)

def sub (f : List Bool → H) (π : List Bool) : H := T.hash f (T.depth - π.length) π

theorem sub_of_depth {f : List Bool → H} {π : List Bool} (hπ : π.length = T.depth) :
    T.sub f π = f π := by
  rw [sub, hπ, Nat.sub_self, hash_zero]

theorem sub_of_lt {f : List Bool → H} {π : List Bool} (hπ : π.length < T.depth) :
    T.sub f π = T.combine (T.sub f (π ++ [false])) (T.sub f (π ++ [true])) := by
  have hk : ∀ b, T.depth - π.length = T.depth - (π ++ [b]).length + 1 := by
    intro b
    rw [List.length_append, List.length_singleton]
    omega
  rw [sub, hk false, hash_succ, sub, sub]
  simp

variable {T}

/-- **A position is empty exactly when it is not occupied.** -/
theorem sub_eq_empty_iff (hp : T.Proper) (hπ : π.length ≤ T.depth) :
    T.sub f π = T.empty ↔ ¬ T.Occupied f π := by
  rw [← not_iff_not, not_not, sub, ← Ne, hash_ne_empty_iff hp]
  constructor
  · rintro ⟨y, hy, hne⟩
    exact ⟨π ++ y, ⟨by simp; omega, hne⟩, ⟨y, rfl⟩⟩
  · rintro ⟨x, hx, ⟨y, rfl⟩⟩
    refine ⟨y, ?_, hx.2⟩
    have := hx.1
    rw [List.length_append] at this
    omega

/-- The hash of a position depends only on the leaves below it. -/
theorem sub_congr (hπ : π.length ≤ T.depth)
    (hfg : ∀ x, x.length = T.depth → π <+: x → f x = g x) : T.sub f π = T.sub g π := by
  apply hash_congr
  intro y hy
  refine hfg (π ++ y) ?_ ⟨y, rfl⟩
  rw [List.length_append]
  omega

theorem sub_ne_empty (hp : T.Proper) (ho : T.Occupied f π) : T.sub f π ≠ T.empty := by
  rw [Ne, sub_eq_empty_iff hp ho.length_le]
  exact not_not.mpr ho

end HashTree
