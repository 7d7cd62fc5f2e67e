import ElaraMesh.Itc.Event

/-!
# Merging event trees

`Event.join` is meant to be the pointwise maximum of two event trees.  It is, as
long as no subtree is moved to a base it does not reach: the halves of the node
with the smaller base are counted from the larger one by `Event.rebase`, and a
half that is itself a node with too small a base comes out of that too high.

## Main results

* `Event.min_max_le_join` — `join` never loses a counter.
* `Event.join_laws` — **`join` is the pointwise maximum exactly on
  `JoinFaithful` pairs**, and what remains of the semilattice laws.
-/

namespace ElaraMesh
namespace Itc
namespace Event

/-- Whatever `join` raises is covered by the tree it is joined with. -/
def JoinFaithful : Event → Event → Prop
  | node n₁ l₁ r₁, node n₂ l₂ r₂ =>
    if n₁ > n₂ then
      (l₂.Covered n₂ n₁ l₁ ∧ JoinFaithful l₁ (l₂.rebase n₂ n₁)) ∧
        (r₂.Covered n₂ n₁ r₁ ∧ JoinFaithful r₁ (r₂.rebase n₂ n₁))
    else if n₂ > n₁ then
      (l₁.Covered n₁ n₂ l₂ ∧ JoinFaithful (l₁.rebase n₁ n₂) l₂) ∧
        (r₁.Covered n₁ n₂ r₂ ∧ JoinFaithful (r₁.rebase n₁ n₂) r₂)
    else JoinFaithful l₁ l₂ ∧ JoinFaithful r₁ r₂
  | _, _ => True
termination_by a b => a.size + b.size
decreasing_by all_goals simp [size]; try omega

/-! ### `join` never loses a counter -/

theorem min_max_le_join (a b : Event) (x : Point) :
    min U64.max (max (a.value x) (b.value x)) ≤ (a.join b).value x := by
  fun_induction join a b generalizing x with
  | case1 n₁ n₂ => exact min_le_right _ _
  | case2 n₁ n₂ l₂ r₂ h =>
    have hl := min_peak_le_maxVal (node n₂ l₂ r₂)
    have hv := value_le_peak (node n₂ l₂ r₂) x
    rw [maxVal] at hl
    simp only [value_leaf]
    omega
  | case3 n₁ n₂ l₂ r₂ h ihl ihr =>
    refine le_trans ?_ (min_value_le_normalize _ x)
    have hl := ihl x.tail
    have hr := ihr x.tail
    simp only [value_leaf, U64.satSub] at hl hr
    rw [value_node, value_node, value_leaf, U64.satSub]
    split <;> omega
  | case4 n₁ l₁ r₁ n₂ h =>
    have hl := min_peak_le_maxVal (node n₁ l₁ r₁)
    have hv := value_le_peak (node n₁ l₁ r₁) x
    rw [maxVal] at hl
    simp only [value_leaf]
    omega
  | case5 n₁ l₁ r₁ n₂ h ihl ihr =>
    refine le_trans ?_ (min_value_le_normalize _ x)
    have hl := ihl x.tail
    have hr := ihr x.tail
    simp only [value_leaf, U64.satSub] at hl hr
    rw [value_node, value_node, value_leaf, U64.satSub]
    split <;> omega
  | case6 n₁ l₁ r₁ n₂ l₂ r₂ h ihl ihr =>
    refine le_trans ?_ (min_value_le_normalize _ x)
    have hl := ihl x.tail
    have hr := ihr x.tail
    have hl' := min_value_add_le_rebase l₂ n₂ n₁ x.tail
    have hr' := min_value_add_le_rebase r₂ n₂ n₁ x.tail
    simp only [rebase] at hl' hr'
    simp only [value_node]
    split <;> omega
  | case7 n₁ l₁ r₁ n₂ l₂ r₂ h h' ihl ihr =>
    refine le_trans ?_ (min_value_le_normalize _ x)
    have hl := ihl x.tail
    have hr := ihr x.tail
    have hl' := min_value_add_le_rebase l₁ n₁ n₂ x.tail
    have hr' := min_value_add_le_rebase r₁ n₁ n₂ x.tail
    simp only [rebase] at hl' hr'
    simp only [value_node]
    split <;> omega
  | case8 n₁ l₁ r₁ n₂ l₂ r₂ h h' ihl ihr =>
    refine le_trans ?_ (min_value_le_normalize _ x)
    have hl := ihl x.tail
    have hr := ihr x.tail
    simp only [value_node]
    split <;> omega

/-! ### When `join` is the pointwise maximum -/

/-- `join a b` has the larger counter at every point. -/
def JoinsToMax (a b : Event) : Prop :=
  ∀ x, (a.join b).value x = max (a.value x) (b.value x)

/-- `join` does not depend on the order of its arguments. -/
theorem join_comm (a b : Event) : a.join b = b.join a := by
  fun_induction join a b with
  | case1 n₁ n₂ => rw [join, max_comm]
  | case2 n₁ n₂ l₂ r₂ h => rw [join, if_pos h]
  | case3 n₁ n₂ l₂ r₂ h ihl ihr => rw [join, if_neg h, ihl, ihr]
  | case4 n₁ l₁ r₁ n₂ h => rw [join, if_pos h]
  | case5 n₁ l₁ r₁ n₂ h ihl ihr => rw [join, if_neg h, ihl, ihr]
  | case6 n₁ l₁ r₁ n₂ l₂ r₂ h ihl ihr =>
    rw [join.eq_4 n₂ l₂ r₂, if_neg (by omega), if_pos h, ihl, ihr]
  | case7 n₁ l₁ r₁ n₂ l₂ r₂ h h' ihl ihr =>
    rw [join.eq_4 n₂ l₂ r₂, if_pos h', ihl, ihr]
  | case8 n₁ l₁ r₁ n₂ l₂ r₂ h h' ihl ihr =>
    have hn : n₁ = n₂ := by omega
    rw [join.eq_4 n₂ l₂ r₂, if_neg (by omega), if_neg (by omega), ihl, ihr, hn]

theorem joinsToMax_comm {a b : Event} : JoinsToMax a b ↔ JoinsToMax b a := by
  unfold JoinsToMax
  rw [join_comm]
  exact forall_congr' fun x => by rw [max_comm]

/-- A normalized node has given counters below saturation exactly when its
halves do. -/
theorem normalize_node_iff {m : ℕ} {l r : Event} {f : Point → ℕ} (hf : ∀ x, f x < U64.max) :
    (∀ x, (node m l r).normalize.value x = f x) ↔
      (∀ x, m + l.value x = f (Point.cons false x)) ∧
      (∀ x, m + r.value x = f (Point.cons true x)) := by
  rw [← forall_value_node (P := fun x v => v = f x)]
  refine forall_congr' fun x => ⟨fun h => ?_, fun h => ?_⟩
  · rw [← h]
    exact value_eq_of_normalize_lt (by rw [h]; exact hf x)
  · rw [← h]
    exact value_normalize (by rw [h]; exact (hf x).le)

/-- A half of a node whose two halves were joined after moving the second from
base `n` to base `m`: its counters are right exactly when nothing was raised
uncovered and the halves themselves join to the maximum. -/
theorem half_iff {u e : Event} {n m : ℕ} (hu : m + u.peak < U64.max)
    (he : n + e.peak < U64.max) :
    (∀ x, m + (u.join (e.rebase n m)).value x = max (m + u.value x) (n + e.value x)) ↔
      e.Covered n m u ∧ JoinsToMax u (e.rebase n m) := by
  have hb : e.base + n ≤ U64.max := by have := base_le_peak e; omega
  rw [← max_rebase_iff hb]
  constructor
  · intro h
    refine ⟨fun x => ?_, fun x => ?_⟩ <;>
    · have hx := h x
      have hj := min_max_le_join u (e.rebase n m) x
      have hr := value_add_le_rebase (m := m) hb x
      have hux := value_le_peak u x
      have hex := value_le_peak e x
      omega
  · rintro ⟨hc, hj⟩ x
    have hcx := hc x
    have hjx := hj x
    omega

/-- A leaf joins to the maximum with every tree: moving a single counter to
another base stops at zero, which the other tree covers. -/
theorem joinsToMax_leaf : ∀ {b : Event} (n : ℕ), n < U64.max → b.peak < U64.max →
    JoinsToMax (leaf n) b
  | leaf m, n, _, _ => fun x => by rw [join]; rfl
  | node m l r, n, hn, hb => by
    have hl := peak_left_le m l r
    have hr := peak_right_le m l r
    have hmax : U64.satAdd m (max l.maxVal r.maxVal) = (node m l r).peak := by
      rw [← maxVal_eq_peak hb.le, maxVal]
    unfold JoinsToMax
    rw [join, hmax]
    split
    · next hge =>
      intro x
      have hv := value_le_peak (node m l r) x
      simp only [value_leaf]
      omega
    · have ihl := joinsToMax_leaf (b := l) (n - m) (by omega) (by omega)
      have ihr := joinsToMax_leaf (b := r) (n - m) (by omega) (by omega)
      rw [normalize_node_iff (fun x => by
        have := value_le_peak (node m l r) x; simp only [value_leaf]; omega)]
      refine ⟨fun x => ?_, fun x => ?_⟩
      · have := ihl x
        simp only [value_leaf, value_node_left, U64.satSub] at this ⊢
        omega
      · have := ihr x
        simp only [value_leaf, value_node_right, U64.satSub] at this ⊢
        omega

theorem max_value_lt {a b : Event} (ha : a.peak < U64.max) (hb : b.peak < U64.max) (x : Point) :
    max (a.value x) (b.value x) < U64.max := by
  have := value_le_peak a x
  have := value_le_peak b x
  omega

/-- **`join` is the pointwise maximum exactly on `JoinFaithful` pairs.**  The
induction follows the recursion of `join`: a node is right at every point when
both of its halves are, and `half_iff` says when a half is. -/
theorem joinsToMax_iff {a b : Event} (ha : a.peak < U64.max) (hb : b.peak < U64.max) :
    JoinsToMax a b ↔ JoinFaithful a b := by
  fun_induction JoinFaithful a b with
  | case1 n₁ l₁ r₁ n₂ l₂ r₂ h ihl ihr =>
    have hl₁ := peak_left_le n₁ l₁ r₁
    have hr₁ := peak_right_le n₁ l₁ r₁
    have hl₂ := peak_left_le n₂ l₂ r₂
    have hr₂ := peak_right_le n₂ l₂ r₂
    have hpl := peak_rebase_le (e := l₂) (n := n₂) (m := n₁) (by omega)
    have hpr := peak_rebase_le (e := r₂) (n := n₂) (m := n₁) (by omega)
    rw [← ihl (by omega) (by omega), ← ihr (by omega) (by omega),
      ← half_iff (by omega) (by omega), ← half_iff (by omega) (by omega), JoinsToMax, join,
      if_pos h, normalize_node_iff (max_value_lt ha hb)]
    rfl
  | case2 n₁ l₁ r₁ n₂ l₂ r₂ h h' ihl ihr =>
    have hl₁ := peak_left_le n₁ l₁ r₁
    have hr₁ := peak_right_le n₁ l₁ r₁
    have hl₂ := peak_left_le n₂ l₂ r₂
    have hr₂ := peak_right_le n₂ l₂ r₂
    have hpl := peak_rebase_le (e := l₁) (n := n₁) (m := n₂) (by omega)
    have hpr := peak_rebase_le (e := r₁) (n := n₁) (m := n₂) (by omega)
    rw [← ihl (by omega) (by omega), ← ihr (by omega) (by omega), joinsToMax_comm,
      joinsToMax_comm (b := l₂), joinsToMax_comm (b := r₂),
      ← half_iff (by omega) (by omega), ← half_iff (by omega) (by omega), JoinsToMax, join,
      if_pos h', normalize_node_iff (max_value_lt hb ha)]
    rfl
  | case3 n₁ l₁ r₁ n₂ l₂ r₂ h h' ihl ihr =>
    have hl₁ := peak_left_le n₁ l₁ r₁
    have hr₁ := peak_right_le n₁ l₁ r₁
    have hl₂ := peak_left_le n₂ l₂ r₂
    have hr₂ := peak_right_le n₂ l₂ r₂
    have hn : n₁ = n₂ := by omega
    subst hn
    rw [← ihl (by omega) (by omega), ← ihr (by omega) (by omega), JoinsToMax, join,
      if_neg h, if_neg h', normalize_node_iff (max_value_lt ha hb), JoinsToMax, JoinsToMax]
    refine and_congr (forall_congr' fun x => ?_) (forall_congr' fun x => ?_)
    · simp only [value_node_left]; omega
    · simp only [value_node_right]; omega
  | case4 a b hno =>
    refine iff_of_true ?_ trivial
    cases a with
    | leaf n => exact joinsToMax_leaf n ha hb
    | node n₁ l₁ r₁ =>
      cases b with
      | leaf n => exact joinsToMax_comm.mp (joinsToMax_leaf n hb ha)
      | node n₂ l₂ r₂ => exact absurd rfl (hno _ _ _ _ _ _ rfl)

/-! ### The laws of a semilattice -/

theorem joinFaithful_self : ∀ a : Event, JoinFaithful a a
  | leaf n => by simp [JoinFaithful]
  | node n l r => by
    rw [JoinFaithful, if_neg (lt_irrefl n), if_neg (lt_irrefl n)]
    exact ⟨joinFaithful_self l, joinFaithful_self r⟩

/-- A pair that joins to the maximum stays below saturation. -/
theorem peak_join_lt {a b : Event} (ha : a.peak < U64.max) (hb : b.peak < U64.max)
    (h : JoinsToMax a b) : (a.join b).peak < U64.max := by
  obtain ⟨x, hx⟩ := exists_value_eq_peak (a.join b)
  rw [← hx, h x]
  exact max_value_lt ha hb x

/-- **The merge of event trees.**  On trees whose counters stay below saturation
`join` is the pointwise maximum exactly on `JoinFaithful` pairs.  It is always
idempotent and commutative, and it is associative where the four joins involved
are faithful. -/
theorem join_laws (a b c : Event) (ha : a.peak < U64.max) (hb : b.peak < U64.max)
    (hc : c.peak < U64.max) :
    (JoinsToMax a b ↔ JoinFaithful a b) ∧
    (∀ x, (a.join a).value x = a.value x) ∧
    (∀ x, (a.join b).value x = (b.join a).value x) ∧
    (JoinFaithful a b → JoinFaithful (a.join b) c → JoinFaithful b c →
      JoinFaithful a (b.join c) →
      ∀ x, ((a.join b).join c).value x = (a.join (b.join c)).value x) := by
  refine ⟨joinsToMax_iff ha hb, fun x => ?_, fun x => by rw [join_comm], ?_⟩
  · rw [(joinsToMax_iff ha ha).mpr (joinFaithful_self a) x, max_self]
  · intro hab habc hbc ha_bc x
    have jab := (joinsToMax_iff ha hb).mpr hab
    have jbc := (joinsToMax_iff hb hc).mpr hbc
    rw [(joinsToMax_iff (peak_join_lt ha hb jab) hc).mpr habc x, jab x,
      (joinsToMax_iff ha (peak_join_lt hb hc jbc)).mpr ha_bc x, jbc x, max_assoc]

/-- The laws at three trees of different shapes, all four joins faithful. -/
theorem join_laws_nested :
    (JoinsToMax (node 1 (leaf 0) (leaf 2)) (node 2 (leaf 1) (leaf 0)) ↔
      JoinFaithful (node 1 (leaf 0) (leaf 2)) (node 2 (leaf 1) (leaf 0))) ∧
    ∀ x, (((node 1 (leaf 0) (leaf 2)).join (node 2 (leaf 1) (leaf 0))).join (leaf 4)).value x =
      ((node 1 (leaf 0) (leaf 2)).join ((node 2 (leaf 1) (leaf 0)).join (leaf 4))).value x := by
  have h := join_laws (node 1 (leaf 0) (leaf 2)) (node 2 (leaf 1) (leaf 0)) (leaf 4)
    (by decide) (by decide) (by decide)
  refine ⟨h.1, h.2.2.2 ?_ ?_ ?_ ?_⟩ <;>
    simp [JoinFaithful, Covered, join, rebase, lift, sink, normalize, collapse, maxVal,
      U64.satAdd, U64.satSub, U64.max]

/-- A subtree that lies below the base of the other tree is raised: at the left
right quarter the two trees count three and two, and their join counts five. -/
theorem join_exceeds_max :
    (node 3 (leaf 0) (leaf 1)).peak < U64.max ∧
    (node 0 (node 0 (leaf 0) (leaf 2)) (leaf 0)).peak < U64.max ∧
    ¬ JoinsToMax (node 3 (leaf 0) (leaf 1)) (node 0 (node 0 (leaf 0) (leaf 2)) (leaf 0)) := by
  refine ⟨by decide, by decide, fun h => ?_⟩
  have hx := h (Point.cons false (Point.cons true fun _ => false))
  have hj : (node 3 (leaf 0) (leaf 1)).join (node 0 (node 0 (leaf 0) (leaf 2)) (leaf 0)) =
      node 3 (node 0 (leaf 0) (leaf 2)) (leaf 1) := by
    decide +kernel
  rw [hj] at hx
  revert hx
  decide

end Event
end Itc
end ElaraMesh
