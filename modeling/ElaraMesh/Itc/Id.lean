import Mathlib.Data.List.Basic
import Mathlib.Algebra.Order.Field.Rat
import Mathlib.Tactic.Linarith

/-!
# Interval tree clock identities

The identity component of a stamp is a binary tree over the unit interval: a
leaf owns all of its part or none of it, a node splits its part in halves.  A
point of the interval is given by its binary expansion, so following a point
down a tree reads one bit a level.

## Main results

* `Id.owns_join` — joining is union.
* `Id.pairOwners_fork` — forking splits the owned points in two disjoint parts,
  as long as `Id.splitsBoth` is avoided.
* `Id.share_fork_lt` — otherwise the two parts together are longer than what
  was forked.
-/

namespace ElaraMesh
namespace Itc

/-- A point of the unit interval, by its binary expansion: bit `k` says which
half of its dyadic interval of depth `k` the point lies in. -/
abbrev Point := ℕ → Bool

namespace Point

/-- The point seen from inside the half it lies in. -/
def tail (x : Point) : Point := fun k => x (k + 1)

/-- The point `x` of the half `b`, seen from outside. -/
def cons (b : Bool) (x : Point) : Point
  | 0 => b
  | k + 1 => x k

@[simp] theorem cons_zero (b : Bool) (x : Point) : cons b x 0 = b := rfl

@[simp] theorem tail_cons (b : Bool) (x : Point) : tail (cons b x) = x := rfl

end Point

/-- Identity component of a stamp: a leaf is owned (`true`) or not, a node
splits ownership between its halves. -/
inductive Id where
  | leaf (owned : Bool) : Id
  | node (l r : Id) : Id
  deriving DecidableEq, Repr, Inhabited

namespace Id

/-- The seed identity owns everything. -/
def seed : Id := leaf true

def isZero : Id → Bool
  | leaf false => true
  | _ => false

/-- Collapse a node whose halves have become the same leaf. -/
def collapse : Id → Id → Id
  | leaf a, leaf b => if a = b then leaf a else node (leaf a) (leaf b)
  | l, r => node l r

/-- Normalize the tree: collapse nodes with identical leaves, bottom-up. -/
def normalize : Id → Id
  | node l r => collapse l.normalize r.normalize
  | leaf b => leaf b

/-- Split an identity in two. -/
def fork : Id → Id × Id
  | leaf false => (leaf false, leaf false)
  | leaf true => (node (leaf true) (leaf false), node (leaf false) (leaf true))
  | node l r =>
    if r.isZero then
      (node l.fork.1 (leaf false), node l.fork.2 (leaf false))
    else if l.isZero then
      (node (leaf false) r.fork.1, node (leaf false) r.fork.2)
    else
      -- both sides have identity: each child becomes an identity of its own
      (l, r)

/-- Merge two identities. -/
def join : Id → Id → Id
  | leaf false, other => other
  | this, leaf false => this
  | node l₁ r₁, node l₂ r₂ => (node (l₁.join l₂) (r₁.join r₂)).normalize
  -- any other combination with an owned leaf is full ownership
  | _, _ => leaf true

/-! ### Ownership -/

def owns : Id → Point → Bool
  | leaf b, _ => b
  | node l r, x => if x 0 then r.owns x.tail else l.owns x.tail

@[simp] theorem owns_leaf (b : Bool) (x : Point) : (leaf b).owns x = b := rfl

theorem owns_node (l r : Id) (x : Point) :
    (node l r).owns x = if x 0 then r.owns x.tail else l.owns x.tail := rfl

theorem isZero_iff {id : Id} : id.isZero = true ↔ id = leaf false := by
  cases id with
  | leaf b => cases b <;> simp [isZero]
  | node l r => simp [isZero]

theorem owns_collapse (l r : Id) (x : Point) : (collapse l r).owns x = (node l r).owns x := by
  unfold collapse
  split
  · next a b =>
    split
    · next h => simp [owns_node, h]
    · rfl
  · rfl

@[simp] theorem owns_normalize (id : Id) (x : Point) : id.normalize.owns x = id.owns x := by
  induction id generalizing x with
  | leaf b => rfl
  | node l r ihl ihr =>
    rw [normalize, owns_collapse, owns_node, owns_node]
    split
    · exact ihr _
    · exact ihl _

/-- **Joining is union.** -/
theorem owns_join : ∀ (a b : Id) (x : Point), (a.join b).owns x = (a.owns x || b.owns x) := by
  intro a
  induction a with
  | leaf p =>
    intro b x
    cases p with
    | false => simp [join]
    | true =>
      cases b with
      | leaf q => cases q <;> simp [join]
      | node l r => simp [join]
  | node l₁ r₁ ihl ihr =>
    intro b x
    cases b with
    | leaf q => cases q <;> simp [join]
    | node l₂ r₂ =>
      rw [join, owns_normalize, owns_node, owns_node, owns_node]
      split
      · exact ihr _ _
      · exact ihl _ _

/-! ### Forking

`fork` follows the one child that holds identity until it meets an owned leaf,
which it halves, or a node both of whose children hold identity.  Only in the
second case are the parts it returns not parts of the identity. -/

/-- Forking this identity ends at a node both of whose children hold identity. -/
def splitsBoth : Id → Bool
  | leaf _ => false
  | node l r =>
    if r.isZero then l.splitsBoth
    else if l.isZero then r.splitsBoth
    else true

theorem fork_of_right_zero {l r : Id} (hr : r.isZero = true) :
    (node l r).fork = (node l.fork.1 (leaf false), node l.fork.2 (leaf false)) := by
  rw [fork, if_pos hr]

theorem fork_of_left_zero {l r : Id} (hr : r.isZero = false) (hl : l.isZero = true) :
    (node l r).fork = (node (leaf false) r.fork.1, node (leaf false) r.fork.2) := by
  rw [fork, if_neg (by simp [hr]), if_pos hl]

theorem fork_of_both {l r : Id} (hr : r.isZero = false) (hl : l.isZero = false) :
    (node l r).fork = (l, r) := by
  rw [fork, if_neg (by simp [hr]), if_neg (by simp [hl])]

/-- The three ways a node is forked. -/
theorem fork_cases (l r : Id) :
    (r = leaf false ∧ (node l r).splitsBoth = l.splitsBoth ∧
      (node l r).fork = (node l.fork.1 (leaf false), node l.fork.2 (leaf false))) ∨
    (r.isZero = false ∧ l = leaf false ∧ (node l r).splitsBoth = r.splitsBoth ∧
      (node l r).fork = (node (leaf false) r.fork.1, node (leaf false) r.fork.2)) ∨
    (r.isZero = false ∧ l.isZero = false ∧ (node l r).splitsBoth = true ∧
      (node l r).fork = (l, r)) := by
  cases hr : r.isZero with
  | true =>
    exact Or.inl ⟨isZero_iff.mp hr, by rw [splitsBoth, if_pos hr], fork_of_right_zero hr⟩
  | false =>
    cases hl : l.isZero with
    | true =>
      refine Or.inr (Or.inl ⟨rfl, isZero_iff.mp hl, ?_, fork_of_left_zero hr hl⟩)
      rw [splitsBoth, if_neg (by simp [hr]), if_pos hl]
    | false =>
      refine Or.inr (Or.inr ⟨rfl, rfl, ?_, fork_of_both hr hl⟩)
      rw [splitsBoth, if_neg (by simp [hr]), if_neg (by simp [hl])]

/-- How many of the two parts own a point. -/
def pairOwners (p : Id × Id) (x : Point) : ℕ := (p.1.owns x).toNat + (p.2.owns x).toNat

/-- **Forking splits what is owned**: away from `splitsBoth`, a point is owned
by exactly one of the parts if the identity owns it, and by neither otherwise. -/
theorem pairOwners_fork {id : Id} (h : id.splitsBoth = false) (x : Point) :
    pairOwners id.fork x = (id.owns x).toNat := by
  induction id generalizing x with
  | leaf b =>
    cases b with
    | false => rfl
    | true => cases hx : x 0 <;> simp [fork, pairOwners, owns_node, hx]
  | node l r ihl ihr =>
    rcases fork_cases l r with ⟨hr, hs, hf⟩ | ⟨-, hl, hs, hf⟩ | ⟨-, -, hs, -⟩
    · have ih := ihl (hs ▸ h) x.tail
      rw [hf, hr]
      cases hx : x 0 <;> simp_all [pairOwners, owns_node]
    · have ih := ihr (hs ▸ h) x.tail
      rw [hf, hl]
      cases hx : x 0 <;> simp_all [pairOwners, owns_node]
    · exact absurd (hs.symm.trans h) (by simp)

/-! ### Shares of the interval -/

/-- The length of the part of the unit interval the identity owns. -/
def share : Id → ℚ
  | leaf b => if b then 1 else 0
  | node l r => (l.share + r.share) / 2

theorem share_nonneg : ∀ id : Id, 0 ≤ id.share
  | leaf b => by cases b <;> simp [share]
  | node l r => by
    have hl := share_nonneg l
    have hr := share_nonneg r
    rw [share]; linarith

/-- No node of the identity has two zero leaves, as in every identity the
operations build. -/
def Tight : Id → Prop
  | leaf _ => True
  | node l r => l.Tight ∧ r.Tight ∧ ¬ (l.isZero = true ∧ r.isZero = true)

/-- A tight identity that is not zero owns a part of positive length. -/
theorem share_pos : ∀ {id : Id}, id.Tight → id.isZero = false → 0 < id.share
  | leaf b, _, h => by cases b <;> simp_all [isZero, share]
  | node l r, ⟨hl, hr, hne⟩, _ => by
    have hl0 := share_nonneg l
    have hr0 := share_nonneg r
    rw [share]
    cases hlz : l.isZero with
    | false => linarith [share_pos hl hlz]
    | true =>
      cases hrz : r.isZero with
      | false => linarith [share_pos hr hrz]
      | true => exact absurd ⟨hlz, hrz⟩ hne

/-- The parts of a non-zero identity are non-zero. -/
theorem fork_isZero : ∀ {id : Id}, id.isZero = false →
    id.fork.1.isZero = false ∧ id.fork.2.isZero = false
  | leaf true, _ => ⟨rfl, rfl⟩
  | node l r, _ => by
    rcases fork_cases l r with ⟨-, -, hf⟩ | ⟨-, -, -, hf⟩ | ⟨hr, hl, -, hf⟩
    · rw [hf]; exact ⟨rfl, rfl⟩
    · rw [hf]; exact ⟨rfl, rfl⟩
    · rw [hf]; exact ⟨hl, hr⟩

theorem fork_tight : ∀ {id : Id}, id.Tight → id.fork.1.Tight ∧ id.fork.2.Tight
  | leaf false, _ => by simp [fork, Tight]
  | leaf true, _ => by simp [fork, Tight, isZero]
  | node l r, ⟨hl, hr, hne⟩ => by
    rcases fork_cases l r with ⟨hrz, -, hf⟩ | ⟨hrz, hlz, -, hf⟩ | ⟨-, -, -, hf⟩
    · have hlz : l.isZero = false := by simpa [hrz, isZero] using hne
      rw [hf]
      simp [Tight, fork_tight hl, fork_isZero hlz]
    · rw [hf]
      simp [Tight, fork_tight hr, fork_isZero hrz]
    · rw [hf]; exact ⟨hl, hr⟩

theorem collapse_tight {l r : Id} (hl : l.Tight) (hr : r.Tight) : (collapse l r).Tight := by
  unfold collapse
  split
  · next a b =>
    split
    · trivial
    · next hab => cases a <;> cases b <;> simp_all [Tight, isZero]
  · next hno =>
    refine ⟨hl, hr, ?_⟩
    rintro ⟨hlz, hrz⟩
    exact hno false false (isZero_iff.mp hlz) (isZero_iff.mp hrz)

theorem normalize_tight : ∀ id : Id, id.normalize.Tight
  | leaf _ => trivial
  | node l r => collapse_tight (normalize_tight l) (normalize_tight r)

theorem join_tight : ∀ {a b : Id}, a.Tight → b.Tight → (a.join b).Tight
  | leaf false, _, _, hb => by simpa [join] using hb
  | leaf true, leaf false, _, _ => trivial
  | leaf true, leaf true, _, _ => trivial
  | leaf true, node _ _, _, _ => trivial
  | node _ _, leaf false, ha, _ => ha
  | node _ _, leaf true, _, _ => trivial
  | node _ _, node _ _, _, _ => normalize_tight _

/-- **A fork that splits both sides gains length**: the children come out of the
node at twice the length they had inside it. -/
theorem share_fork_lt : ∀ {id : Id}, id.Tight → id.splitsBoth = true →
    id.share < id.fork.1.share + id.fork.2.share
  | node l r, ⟨hl, hr, _⟩, h => by
    rcases fork_cases l r with ⟨hrz, hs, hf⟩ | ⟨-, hlz, hs, hf⟩ | ⟨hrz, hlz, -, hf⟩
    · have ih := share_fork_lt hl (hs ▸ h)
      rw [hf, hrz]
      simp only [share, Bool.false_eq_true, if_false]
      linarith
    · have ih := share_fork_lt hr (hs ▸ h)
      rw [hf, hlz]
      simp only [share, Bool.false_eq_true, if_false]
      linarith
    · have hlp := share_pos hl hlz
      have hrp := share_pos hr hrz
      rw [hf]
      simp only [share]
      linarith

end Id
end Itc
end ElaraMesh
