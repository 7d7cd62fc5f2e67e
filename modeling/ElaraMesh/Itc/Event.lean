import ElaraMesh.Itc.Id
import ElaraMesh.Lib.U64

/-!
# Interval tree clock events

The event component of a stamp is a tree of counters over the unit interval.  A
node adds its base to whatever its halves count, so the counter at a point is
the sum of the bases on the way down to it.

The counters are `u64`s with saturating arithmetic.  Subtracting is where the
representation and its meaning part: `sink` lowers the base of the root only,
and stops at zero, so a subtree whose counters lie partly below the amount to
subtract comes out too high.

## Main results

* `Event.value_normalize` — normalizing keeps the counters.
* `Event.max_rebase_iff` — what `lift` then `sink` do to the counters.
-/

namespace ElaraMesh
namespace Itc

open U64 (satAdd satSub)

/-- Event component of a stamp: a leaf is a counter, a node a base counter and
two halves that count from it. -/
inductive Event where
  | leaf (n : ℕ) : Event
  | node (n : ℕ) (l r : Event) : Event
  deriving DecidableEq, Repr, Inhabited

namespace Event

def zero : Event := leaf 0

/-- Collapse a node whose halves have become the same leaf. -/
def collapse : ℕ → Event → Event → Event
  | n, leaf a, leaf b => if a = b then leaf (satAdd n a) else node n (leaf a) (leaf b)
  | n, l, r => node n l r

/-- Normalize: collapse trivial nodes, bottom-up. -/
def normalize : Event → Event
  | node n l r => collapse n l.normalize r.normalize
  | leaf n => leaf n

/-- Add `m` to all counters, at the root. -/
def lift (e : Event) (m : ℕ) : Event :=
  if m = 0 then e
  else
    match e with
    | leaf n => leaf (satAdd n m)
    | node n l r => node (satAdd n m) l r

/-- Subtract `m` from the root. -/
def sink (e : Event) (m : ℕ) : Event :=
  if m = 0 then e
  else
    match e with
    | leaf n => leaf (satSub n m)
    | node n l r => node (satSub n m) l r

def base : Event → ℕ
  | leaf n => n
  | node n _ _ => n

/-- The maximum counter, computed with saturating sums. -/
def maxVal : Event → ℕ
  | leaf n => n
  | node n l r => satAdd n (max l.maxVal r.maxVal)

/-- The number of nodes and leaves: the recursion measure of `join`. -/
def size : Event → ℕ
  | leaf _ => 1
  | node _ l r => 1 + l.size + r.size

@[simp] theorem size_lift (e : Event) (m : ℕ) : (e.lift m).size = e.size := by
  unfold lift
  split
  · rfl
  · cases e <;> rfl

@[simp] theorem size_sink (e : Event) (m : ℕ) : (e.sink m).size = e.size := by
  unfold sink
  split
  · rfl
  · cases e <;> rfl

/-- Join: the pointwise maximum of two event trees, as the code computes it. -/
def join : Event → Event → Event
  | leaf n₁, leaf n₂ => leaf (max n₁ n₂)
  | leaf n₁, node n₂ l₂ r₂ =>
    if n₁ ≥ satAdd n₂ (max l₂.maxVal r₂.maxVal) then
      -- the counter dominates the whole subtree
      leaf n₁
    else
      (node n₂ ((leaf (satSub n₁ n₂)).join l₂) ((leaf (satSub n₁ n₂)).join r₂)).normalize
  | node n₁ l₁ r₁, leaf n₂ =>
    if n₂ ≥ satAdd n₁ (max l₁.maxVal r₁.maxVal) then
      leaf n₂
    else
      (node n₁ (l₁.join (leaf (satSub n₂ n₁))) (r₁.join (leaf (satSub n₂ n₁)))).normalize
  | node n₁ l₁ r₁, node n₂ l₂ r₂ =>
    if n₁ > n₂ then
      (node n₁ (l₁.join ((l₂.lift n₂).sink n₁)) (r₁.join ((r₂.lift n₂).sink n₁))).normalize
    else if n₂ > n₁ then
      (node n₂ (((l₁.lift n₁).sink n₂).join l₂) (((r₁.lift n₁).sink n₂).join r₂)).normalize
    else
      (node n₁ (l₁.join l₂) (r₁.join r₂)).normalize
termination_by a b => a.size + b.size
decreasing_by all_goals simp [size, size_lift, size_sink]; try omega

/-- Is the first event at or before the second, as the code decides it? -/
def leq : Event → Event → Bool
  | leaf n₁, leaf n₂ => decide (n₁ ≤ n₂)
  | leaf n₁, node n₂ _ _ => decide (n₁ ≤ n₂)
  | node n₁ l₁ r₁, leaf n₂ => decide (satAdd n₁ (max l₁.maxVal r₁.maxVal) ≤ n₂)
  | node n₁ l₁ r₁, node n₂ l₂ r₂ =>
    if n₁ > n₂ then false
    else ((l₁.lift n₁).sink n₂).leq l₂ && ((r₁.lift n₁).sink n₂).leq r₂

/-! ### Counters at a point -/

/-- The counter at a point: the sum of the bases on the way down to it. -/
def value : Event → Point → ℕ
  | leaf n, _ => n
  | node n l r, x => n + if x 0 then r.value x.tail else l.value x.tail

def peak : Event → ℕ
  | leaf n => n
  | node n l r => n + max l.peak r.peak

@[simp] theorem value_leaf (n : ℕ) (x : Point) : (leaf n).value x = n := rfl

theorem value_node (n : ℕ) (l r : Event) (x : Point) :
    (node n l r).value x = n + if x 0 then r.value x.tail else l.value x.tail := rfl

@[simp] theorem value_node_left (n : ℕ) (l r : Event) (x : Point) :
    (node n l r).value (Point.cons false x) = n + l.value x := rfl

@[simp] theorem value_node_right (n : ℕ) (l r : Event) (x : Point) :
    (node n l r).value (Point.cons true x) = n + r.value x := rfl

variable {n m : ℕ} {e : Event}

/-- A statement about the counter of a node is one about both halves. -/
theorem forall_value_node {P : Point → ℕ → Prop} {l r : Event} :
    (∀ x, P x ((node n l r).value x)) ↔
      (∀ x, P (Point.cons false x) (n + l.value x)) ∧
      (∀ x, P (Point.cons true x) (n + r.value x)) := by
  constructor
  · intro h
    exact ⟨fun x => h (Point.cons false x), fun x => h (Point.cons true x)⟩
  · rintro ⟨hl, hr⟩ x
    have hx : x = Point.cons (x 0) x.tail := by
      funext k; cases k <;> rfl
    rw [hx]
    cases x 0
    · exact hl x.tail
    · exact hr x.tail

theorem value_le_peak : ∀ (e : Event) (x : Point), e.value x ≤ e.peak
  | leaf _, _ => le_rfl
  | node n l r, x => by
    have hl := value_le_peak l x.tail
    have hr := value_le_peak r x.tail
    rw [value_node, peak]
    split <;> omega

theorem exists_value_eq_peak : ∀ e : Event, ∃ x, e.value x = e.peak
  | leaf _ => ⟨fun _ => false, rfl⟩
  | node n l r => by
    obtain ⟨x, hx⟩ := exists_value_eq_peak l
    obtain ⟨y, hy⟩ := exists_value_eq_peak r
    rcases le_total l.peak r.peak with h | h
    · exact ⟨Point.cons true y, by rw [value_node_right, hy, peak, max_eq_right h]⟩
    · exact ⟨Point.cons false x, by rw [value_node_left, hx, peak, max_eq_left h]⟩

theorem peak_le_iff : e.peak ≤ m ↔ ∀ x, e.value x ≤ m := by
  constructor
  · intro h x
    exact (value_le_peak e x).trans h
  · intro h
    obtain ⟨x, hx⟩ := exists_value_eq_peak e
    exact hx ▸ h x

theorem base_le_peak : ∀ e : Event, e.base ≤ e.peak
  | leaf _ => le_rfl
  | node n l r => by rw [base, peak]; omega

theorem peak_left_le (n : ℕ) (l r : Event) : n + l.peak ≤ (node n l r).peak := by
  rw [peak]; omega

theorem peak_right_le (n : ℕ) (l r : Event) : n + r.peak ≤ (node n l r).peak := by
  rw [peak]; omega

/-- Below saturation the computed maximum is the largest counter. -/
theorem maxVal_eq_peak : ∀ {e : Event}, e.peak ≤ U64.max → e.maxVal = e.peak
  | leaf _, _ => rfl
  | node n l r, h => by
    have hl := peak_left_le n l r
    have hr := peak_right_le n l r
    rw [maxVal, maxVal_eq_peak (by omega), maxVal_eq_peak (by omega), U64.satAdd_eq_add h, peak]

/-- The computed maximum never misses a counter by more than saturation. -/
theorem min_peak_le_maxVal : ∀ e : Event, min U64.max e.peak ≤ e.maxVal
  | leaf _ => min_le_right _ _
  | node n l r => by
    have hl := min_peak_le_maxVal l
    have hr := min_peak_le_maxVal r
    rw [maxVal, peak]
    exact U64.le_satAdd (by omega) (min_le_left _ _)

/-! ### Normalizing -/

theorem value_collapse_le (n : ℕ) (l r : Event) (x : Point) :
    (collapse n l r).value x ≤ (node n l r).value x := by
  unfold collapse
  split
  · next a b =>
    split
    · next h =>
      subst h
      have := U64.satAdd_le_add n a
      rw [value_node]
      split <;> simpa using this
    · exact le_rfl
  · exact le_rfl

theorem min_value_le_collapse (n : ℕ) (l r : Event) (x : Point) :
    min U64.max ((node n l r).value x) ≤ (collapse n l r).value x := by
  unfold collapse
  split
  · next a b =>
    split
    · next h =>
      subst h
      refine U64.le_satAdd ?_ (min_le_left _ _)
      rw [value_node]
      split <;> simp
    · exact min_le_right _ _
  · exact min_le_right _ _

theorem value_normalize_le : ∀ (e : Event) (x : Point), e.normalize.value x ≤ e.value x
  | leaf _, _ => le_rfl
  | node n l r, x => by
    have hl := value_normalize_le l x.tail
    have hr := value_normalize_le r x.tail
    have h := value_collapse_le n l.normalize r.normalize x
    rw [normalize]
    refine h.trans ?_
    rw [value_node, value_node]
    split <;> omega

theorem min_value_le_normalize : ∀ (e : Event) (x : Point),
    min U64.max (e.value x) ≤ e.normalize.value x
  | leaf _, _ => min_le_right _ _
  | node n l r, x => by
    have hl := min_value_le_normalize l x.tail
    have hr := min_value_le_normalize r x.tail
    have h := min_value_le_collapse n l.normalize r.normalize x
    rw [normalize]
    refine le_trans ?_ h
    rw [value_node, value_node]
    split <;> omega

/-- **Normalizing keeps the counters** below saturation. -/
theorem value_normalize {x : Point} (h : e.value x ≤ U64.max) :
    e.normalize.value x = e.value x := by
  have h₁ := value_normalize_le e x
  have h₂ := min_value_le_normalize e x
  omega

/-- What a normalized counter below saturation says about the counter before. -/
theorem value_eq_of_normalize_lt {x : Point}
    (h : e.normalize.value x < U64.max) : e.value x = e.normalize.value x := by
  have h₁ := value_normalize_le e x
  have h₂ := min_value_le_normalize e x
  omega

/-! ### Changing the base

`join` and `leq` compare the halves of two nodes by moving one of them from its
own base `n` to the other's base `m`. -/

/-- Count from `m` instead of from `n`. -/
def rebase (e : Event) (n m : ℕ) : Event := (e.lift n).sink m

@[simp] theorem size_rebase (e : Event) (n m : ℕ) : (e.rebase n m).size = e.size := by
  simp [rebase]

theorem rebase_leaf {k : ℕ} (h : (leaf k).base + n ≤ U64.max) :
    (leaf k).rebase n m = leaf (k + n - m) := by
  have hs : satAdd k n = k + n := U64.satAdd_eq_add h
  by_cases hn : n = 0 <;> by_cases hm : m = 0 <;>
    simp [rebase, lift, sink, satSub, hn, hm, hs]

theorem rebase_node {k : ℕ} {l r : Event} (h : (node k l r).base + n ≤ U64.max) :
    (node k l r).rebase n m = node (k + n - m) l r := by
  have hs : satAdd k n = k + n := U64.satAdd_eq_add h
  by_cases hn : n = 0 <;> by_cases hm : m = 0 <;>
    simp [rebase, lift, sink, satSub, hn, hm, hs]

/-- `e` counted from `m` stays within `o`, where the new base does not reach the
counters: a node whose base falls below `m` keeps the counters above its base,
so these have to be counters of `o` already. -/
def Covered (e : Event) (n m : ℕ) (o : Event) : Prop :=
  match e with
  | leaf _ => True
  | node k l r => k + n < m → ∀ x, (node 0 l r).value x ≤ o.value x

/-- Moving to another base never lowers a counter. -/
theorem value_add_le_rebase (h : e.base + n ≤ U64.max) (x : Point) :
    e.value x + n ≤ (e.rebase n m).value x + m := by
  cases e with
  | leaf k => rw [rebase_leaf h]; simp only [value_leaf]; omega
  | node k l r => rw [rebase_node h, value_node, value_node]; omega

/-- The same, saturation included. -/
theorem min_value_add_le_rebase (e : Event) (n m : ℕ) (x : Point) :
    min U64.max (e.value x + n) ≤ (e.rebase n m).value x + m := by
  have hs : ∀ k : ℕ, min U64.max (k + n) ≤ satAdd k n := fun k =>
    U64.le_satAdd (min_le_right _ _) (min_le_left _ _)
  cases e with
  | leaf k =>
    have := hs k
    by_cases hn : n = 0 <;> by_cases hm : m = 0 <;>
      simp only [rebase, lift, sink, satSub, hn, hm, if_true, if_false, value_leaf] at * <;> omega
  | node k l r =>
    have := hs k
    by_cases hn : n = 0 <;> by_cases hm : m = 0 <;>
      simp only [rebase, lift, sink, satSub, hn, hm, if_true, if_false, value_node] at * <;> omega

/-- **Moving to another base against a tree**: the maximum with `o` is right at
every point exactly when what was raised is covered by `o`. -/
theorem max_rebase_iff {o : Event} (h : e.base + n ≤ U64.max) :
    (∀ x, max (o.value x) ((e.rebase n m).value x) + m
        = max (o.value x + m) (e.value x + n)) ↔ e.Covered n m o := by
  cases e with
  | leaf k =>
    simp only [Covered, iff_true]
    intro x
    rw [rebase_leaf h]
    simp only [value_leaf]
    omega
  | node k l r =>
    rw [Covered, rebase_node h]
    constructor
    · intro heq hlt x
      have hx := heq x
      rw [value_node] at hx ⊢
      rw [value_node] at hx
      omega
    · intro hcov x
      by_cases hlt : k + n < m
      · have hx := hcov hlt x
        rw [value_node] at hx ⊢
        rw [value_node]
        omega
      · rw [value_node, value_node]
        omega

/-- Staying below `o` after moving to another base. -/
theorem rebase_le_iff {o : Event} (h : e.base + n ≤ U64.max) :
    (∀ x, (e.rebase n m).value x ≤ o.value x) ↔
      (∀ x, e.value x + n ≤ o.value x + m) ∧ e.Covered n m o := by
  cases e with
  | leaf k =>
    rw [rebase_leaf h]
    simp only [Covered, value_leaf, and_true]
    refine forall_congr' fun x => ?_
    omega
  | node k l r =>
    rw [Covered, rebase_node h]
    constructor
    · intro hle
      refine ⟨fun x => ?_, fun hlt x => ?_⟩
      · have hx := hle x
        rw [value_node] at hx ⊢
        omega
      · have hx := hle x
        rw [value_node] at hx ⊢
        omega
    · rintro ⟨hle, hcov⟩ x
      by_cases hlt : k + n < m
      · have hx := hcov hlt x
        rw [value_node] at hx ⊢
        omega
      · have hx := hle x
        rw [value_node] at hx ⊢
        omega

/-- Moving to another base keeps the counters below the old peak, or the new one. -/
theorem peak_rebase_le (h : e.peak + n ≤ U64.max) :
    (e.rebase n m).peak ≤ e.peak + n := by
  have hb : e.base + n ≤ U64.max := by have := base_le_peak e; omega
  cases e with
  | leaf k => rw [rebase_leaf hb]; simp only [peak]; omega
  | node k l r => rw [rebase_node hb]; simp only [peak]; omega

end Event
end Itc
end ElaraMesh
