import ElaraMesh.Itc.Stamp

/-!
# The causal order of event trees

`Event.leq` decides whether one event happened before another.  The order it
stands for compares the counters of the two trees at every point.  What `leq`
accepts is in that order.  The converse fails: `leq` compares counters with the
base of the other tree, and a base may lie below every counter of its tree,
since normalizing does not move the common part of two halves into the base.

## Main results

* `Event.leq_iff` — **`leq` is the pointwise order cut down to the pairs whose
  bases reach.**
* `Event.leq_complete_iff` — where `leq` is the pointwise order.
-/

namespace ElaraMesh
namespace Itc
namespace Event

/-- At every point the counter of `a` is at most that of `b`. -/
def PointwiseLe (a b : Event) : Prop := ∀ x, a.value x ≤ b.value x

/-- Every base of `b` that `leq` stops at reaches the counter of `a` it is
compared with, and no half of `a` is raised above `b` by counting it from the
base of `b`. -/
def BasesReach : Event → Event → Prop
  | leaf n₁, node n₂ _ _ => n₁ ≤ n₂
  | node n₁ l₁ r₁, node n₂ l₂ r₂ =>
    n₁ ≤ n₂ ∧ (l₁.Covered n₁ n₂ l₂ ∧ BasesReach (l₁.rebase n₁ n₂) l₂) ∧
      (r₁.Covered n₁ n₂ r₂ ∧ BasesReach (r₁.rebase n₁ n₂) r₂)
  | _, leaf _ => True

/-- A node lies below a node when both halves do, each counted from its base. -/
theorem pointwiseLe_node {n₁ n₂ : ℕ} {l₁ r₁ l₂ r₂ : Event} :
    PointwiseLe (node n₁ l₁ r₁) (node n₂ l₂ r₂) ↔
      (∀ x, l₁.value x + n₁ ≤ l₂.value x + n₂) ∧ ∀ x, r₁.value x + n₁ ≤ r₂.value x + n₂ := by
  unfold PointwiseLe
  rw [forall_value_node (P := fun x v => v ≤ (node n₂ l₂ r₂).value x)]
  simp only [value_node_left, value_node_right, add_comm]

/-- **What `leq` decides.**  The induction is the recursion of `leq`; a half is
compared after `Event.rebase`, which `rebase_le_iff` takes back. -/
theorem leq_iff {a b : Event} (ha : a.peak ≤ U64.max) (hb : b.peak ≤ U64.max) :
    a.leq b = true ↔ PointwiseLe a b ∧ BasesReach a b := by
  fun_induction leq a b with
  | case1 n₁ n₂ => simp [PointwiseLe, BasesReach]
  | case2 n₁ n₂ l₂ r₂ =>
    simp only [decide_eq_true_eq, BasesReach, PointwiseLe, value_leaf]
    refine ⟨fun h => ⟨fun x => ?_, h⟩, fun h => h.2⟩
    rw [value_node]
    omega
  | case3 n₁ l₁ r₁ n₂ =>
    have hmax : U64.satAdd n₁ (max l₁.maxVal r₁.maxVal) = (node n₁ l₁ r₁).peak := by
      rw [← maxVal_eq_peak ha, maxVal]
    rw [decide_eq_true_eq, hmax, peak_le_iff]
    simp [PointwiseLe, BasesReach]
  | case4 n₁ l₁ r₁ n₂ l₂ r₂ h =>
    simp only [Bool.false_eq_true, BasesReach, false_iff]
    rintro ⟨-, hle, -⟩
    omega
  | case5 n₁ l₁ r₁ n₂ l₂ r₂ h ihl ihr =>
    have hl₁ := peak_left_le n₁ l₁ r₁
    have hr₁ := peak_right_le n₁ l₁ r₁
    have hl₂ := peak_left_le n₂ l₂ r₂
    have hr₂ := peak_right_le n₂ l₂ r₂
    have hbl := base_le_peak l₁
    have hbr := base_le_peak r₁
    have hpl := peak_rebase_le (e := l₁) (n := n₁) (m := n₂) (by omega)
    have hpr := peak_rebase_le (e := r₁) (n := n₁) (m := n₂) (by omega)
    have hl : PointwiseLe (l₁.rebase n₁ n₂) l₂ ↔ _ := rebase_le_iff (by omega)
    have hr : PointwiseLe (r₁.rebase n₁ n₂) r₂ ↔ _ := rebase_le_iff (by omega)
    change (l₁.rebase n₁ n₂).peak ≤ _ → _ at ihl
    change (r₁.rebase n₁ n₂).peak ≤ _ → _ at ihr
    rw [Bool.and_eq_true, ihl (by omega) (by omega), ihr (by omega) (by omega),
      pointwiseLe_node, BasesReach]
    change (PointwiseLe (l₁.rebase n₁ n₂) l₂ ∧ _) ∧ PointwiseLe (r₁.rebase n₁ n₂) r₂ ∧ _ ↔ _
    rw [hl, hr]
    have hle : n₁ ≤ n₂ := by omega
    tauto

/-- **The causal order of event trees.**  On trees whose counters stay below
saturation, `leq` agrees with the pointwise order on a pair exactly if the bases
of a tree that lies above reach; what it accepts is always in the order. -/
theorem leq_complete_iff (a b : Event) (ha : a.peak < U64.max) (hb : b.peak < U64.max) :
    ((a.leq b = true ↔ PointwiseLe a b) ↔ (PointwiseLe a b → BasesReach a b)) ∧
    (a.leq b = true → PointwiseLe a b) := by
  rw [leq_iff ha.le hb.le]
  exact ⟨⟨fun h hp => (h.mpr hp).2, fun h => ⟨fun hp => hp.1, fun hp => ⟨hp, h hp⟩⟩⟩,
    fun h => h.1⟩

/-- The order at two trees of different shapes. -/
theorem leq_complete_iff_nested :
    ((leaf 1).leq (node 1 (leaf 0) (leaf 2)) = true ↔
      PointwiseLe (leaf 1) (node 1 (leaf 0) (leaf 2))) := by
  refine (leq_complete_iff (leaf 1) (node 1 (leaf 0) (leaf 2)) (by decide) (by decide)).1.mpr ?_
  intro _
  exact le_rfl

/-- A stamp that `leq` does not find below its own join: after two forks, the
join of two pieces with one event each counts one everywhere; joined with a
piece that went on to two, it counts at least one everywhere from base zero. -/
theorem leq_misses_join :
    ∃ s t : Stamp, Reachable s ∧ Reachable t ∧ s.event.peak < U64.max ∧ t.event.peak < U64.max ∧
      PointwiseLe s.event t.event ∧ s.event.leq t.event = false := by
  refine ⟨⟨.node (.node (.leaf true) (.leaf false)) (.leaf true), leaf 1⟩,
    ⟨.leaf true, node 0 (node 1 (leaf 0) (leaf 1)) (leaf 1)⟩,
    ⟨[.fork 0, .event 0, .event 1, .fork 0, .join 0 1],
      [⟨.node (.node (.leaf true) (.leaf false)) (.leaf true), leaf 1⟩,
        ⟨.node (.node (.leaf false) (.leaf true)) (.leaf false), node 0 (leaf 1) (leaf 0)⟩],
      by decide +kernel, by simp⟩,
    ⟨[.fork 0, .event 0, .event 1, .fork 0, .join 0 1, .event 1, .join 0 1],
      [⟨.leaf true, node 0 (node 1 (leaf 0) (leaf 1)) (leaf 1)⟩],
      by decide +kernel, by simp⟩,
    by decide, by decide, fun x => ?_, by decide⟩
  simp only [value_leaf, value_node]
  split <;> omega

end Event
end Itc
end ElaraMesh
