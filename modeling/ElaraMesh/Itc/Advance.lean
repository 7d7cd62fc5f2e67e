import ElaraMesh.Itc.Order

/-!
# Recording an event advances a stamp

`fill` raises the counters where the identity owns the interval and leaves the others
alone; an owned part that was counted in halves becomes one leaf above all of them.  It
never changes the base of a node that stays a node, which is what `Event.leq` needs to see
that the stamp has grown.

## Main results

* `fill_node` — filling a node fills its halves.
* `value_fill` — what `fill` does at a point.
* `basesReach_fill` — the bases of the filled tree reach the counters before.
* `recordEvent_advances` — **a recorded event is later than the stamp it was recorded on.**
-/

namespace ElaraMesh
namespace Itc

open Event U64

namespace Event

theorem value_normalize_node {n : ℕ} {l r : Event} (h : (node n l r).peak ≤ U64.max) (x : Point) :
    (node n l r).normalize.value x = n + if x 0 then r.value x.tail else l.value x.tail :=
  value_normalize ((value_le_peak _ x).trans h)

theorem peak_normalize_le (e : Event) : e.normalize.peak ≤ e.peak :=
  peak_le_iff.mpr fun x => (value_normalize_le e x).trans (value_le_peak e x)

end Event

/-- Whether a half is owned makes no difference to what a node is filled to: the zero leaf
leaves its half alone. -/
theorem fill_node (lid rid : Id) (n : ℕ) (l r : Event) :
    fill (.node lid rid) (.node n l r) = (node n (fill lid l) (fill rid r)).normalize := by
  have hzero : ∀ {id : Id} (e : Event), id.isZero = true → fill id e = e := by
    intro id e h
    match id with
    | .leaf false => rw [fill]
  rw [fill]
  split_ifs with hl hr
  · rw [hzero l hl]
  · rw [hzero r hr]
  · rfl

theorem peak_fill_le (id : Id) {e : Event} (h : e.peak < U64.max) :
    (fill id e).peak ≤ e.peak + 1 := by
  induction id generalizing e with
  | leaf owned =>
    cases owned with
    | false => rw [fill]; omega
    | true =>
      cases e with
      | leaf n => exact satAdd_le_add n 1
      | node n l r =>
        have hmax : satAdd n (max l.maxVal r.maxVal) = (node n l r).peak := maxVal_eq_peak h.le
        rw [fill, hmax]
        exact satAdd_le_add _ 1
  | node lid rid hl hr =>
    cases e with
    | leaf n =>
      have hl := hl (e := leaf 0) (by decide)
      have hr := hr (e := leaf 0) (by decide)
      refine (peak_normalize_le _).trans ?_
      simp only [peak] at *
      omega
    | node n l r =>
      rw [fill_node]
      refine (peak_normalize_le _).trans ?_
      simp only [peak] at *
      have hl := hl (e := l) (by omega)
      have hr := hr (e := r) (by omega)
      omega

/-- The halves of a filled node stay below saturation. -/
theorem peak_node_fill_le (lid rid : Id) {n : ℕ} {l r : Event} (h : (node n l r).peak < U64.max) :
    (node n (fill lid l) (fill rid r)).peak ≤ U64.max := by
  simp only [peak] at *
  have hl := peak_fill_le lid (e := l) (by omega)
  have hr := peak_fill_le rid (e := r) (by omega)
  omega

/-- At the point the counter has risen, if the identity owns it, and is unchanged otherwise. -/
def RaisedAt (id : Id) (e f : Event) (x : Point) : Prop :=
  if id.owns x then e.value x < f.value x else f.value x = e.value x

theorem raisedAt_node {lid rid : Id} {n : ℕ} {l r l' r' : Event} {x : Point}
    (hpeak : (node n l' r').peak ≤ U64.max) (hl : RaisedAt lid l l' x.tail)
    (hr : RaisedAt rid r r' x.tail) :
    RaisedAt (.node lid rid) (node n l r) (node n l' r').normalize x := by
  unfold RaisedAt at *
  rw [value_normalize_node hpeak, value_node, Id.owns_node]
  cases x 0 with
  | false =>
    simp only [Bool.false_eq_true, if_false]
    split_ifs at hl ⊢ <;> omega
  | true =>
    simp only [if_true]
    split_ifs at hr ⊢ <;> omega

/-- **What `fill` does at a point.** -/
theorem value_fill (id : Id) {e : Event} (h : e.peak < U64.max) (x : Point) :
    RaisedAt id e (fill id e) x := by
  induction id generalizing e x with
  | leaf owned =>
    cases owned with
    | false => rw [fill]; rfl
    | true =>
      cases e with
      | leaf n =>
        have : satAdd n 1 = n + 1 := satAdd_eq_add h
        simp [RaisedAt, Id.owns, fill, this]
      | node n l r =>
        have hmax : satAdd n (max l.maxVal r.maxVal) = (node n l r).peak := maxVal_eq_peak h.le
        have hsucc : satAdd (node n l r).peak 1 = (node n l r).peak + 1 := satAdd_eq_add h
        have := value_le_peak (node n l r) x
        simp only [RaisedAt, Id.owns, if_true, fill, value_leaf, hmax, hsucc]
        omega
  | node lid rid hl hr =>
    cases e with
    | leaf n =>
      -- a leaf counts like a node over two leaves that count nothing
      have hleaf : (node n (leaf 0) (leaf 0)).value x = (leaf n).value x := by simp [value_node]
      have hpeak := peak_node_fill_le lid rid (l := leaf 0) (r := leaf 0) (by simpa [peak] using h)
      have hnode := raisedAt_node (x := x) hpeak
        (hl (e := leaf 0) (by decide) x.tail) (hr (e := leaf 0) (by decide) x.tail)
      rwa [RaisedAt, hleaf] at hnode
    | node n l r =>
      rw [fill_node]
      have hpeak := peak_node_fill_le lid rid h
      simp only [peak] at h
      exact raisedAt_node hpeak (hl (by omega) x.tail) (hr (by omega) x.tail)

/-! ### The bases -/

namespace Event

/-- Two nodes with the same base are compared half by half. -/
theorem basesReach_node {n : ℕ} {l r l' r' : Event} (hpeak : (node n l r).peak ≤ U64.max)
    (hl : BasesReach l l') (hr : BasesReach r r') :
    BasesReach (node n l r) (node n l' r') := by
  have hsame : ∀ {a b : Event}, a.peak + n ≤ U64.max → BasesReach a b →
      a.Covered n n b ∧ BasesReach (a.rebase n n) b := by
    intro a b ha hab
    have hbase : a.base + n ≤ U64.max := by have := base_le_peak a; omega
    cases a with
    | leaf k => exact ⟨trivial, by rwa [rebase_leaf hbase, Nat.add_sub_cancel]⟩
    | node k l r =>
      exact ⟨fun hlt => by omega, by rwa [rebase_node hbase, Nat.add_sub_cancel]⟩
  simp only [peak] at hpeak
  exact ⟨le_rfl, hsame (by omega) hl, hsame (by omega) hr⟩

theorem basesReach_self {e : Event} (h : e.peak ≤ U64.max) : BasesReach e e := by
  induction e with
  | leaf n => trivial
  | node n l r hl hr =>
    have hpeak := h
    simp only [peak] at hpeak
    exact basesReach_node h (hl (by omega)) (hr (by omega))

/-- Normalizing keeps the base of what stays a node. -/
theorem basesReach_normalize {e f : Event} (hf : f.peak ≤ U64.max) (h : BasesReach e f) :
    BasesReach e f.normalize := by
  induction f generalizing e with
  | leaf n => exact h
  | node n l r hl hr =>
    have hshape : ∀ a b : Event, collapse n a b = node n a b ∨ ∃ k, collapse n a b = leaf k := by
      intro a b
      unfold collapse
      split
      · split
        · exact .inr ⟨_, rfl⟩
        · exact .inl rfl
      · exact .inl rfl
    rw [normalize]
    rcases hshape l.normalize r.normalize with hnode | ⟨k, hleaf⟩
    · simp only [peak] at hf
      have hcovered : ∀ {a o : Event} {m : ℕ}, o.peak ≤ U64.max → a.Covered m n o →
          a.Covered m n o.normalize := by
        intro a o m ho hcov
        cases a with
        | leaf k => trivial
        | node k l r =>
          intro hlt x
          rw [value_normalize ((value_le_peak o x).trans ho)]
          exact hcov hlt x
      rw [hnode]
      cases e with
      | leaf m => exact h
      | node m a b =>
        obtain ⟨hle, ⟨hca, ha⟩, hcb, hb⟩ := h
        exact ⟨hle, ⟨hcovered (by omega) hca, hl (by omega) ha⟩, hcovered (by omega) hcb,
          hr (by omega) hb⟩
    · rw [hleaf]
      cases e <;> trivial

end Event

theorem basesReach_fill (id : Id) {e : Event} (h : e.peak < U64.max) :
    BasesReach e (fill id e) := by
  induction id generalizing e with
  | leaf owned =>
    cases owned with
    | false => rw [fill]; exact basesReach_self h.le
    | true => cases e <;> trivial
  | node lid rid hl hr =>
    cases e with
    | leaf n =>
      exact basesReach_normalize (peak_node_fill_le lid rid (l := leaf 0) (r := leaf 0)
        (by simpa [peak] using h)) (le_refl n)
    | node n l r =>
      rw [fill_node]
      refine basesReach_normalize (peak_node_fill_le lid rid h) (basesReach_node h.le ?_ ?_)
      · exact hl (by simp only [peak] at h; omega)
      · exact hr (by simp only [peak] at h; omega)

/-- **A recorded event is later than the stamp it was recorded on.**  Its counter has risen at
every point that the identity owns and is the same at every other, and `leq` says so. -/
theorem recordEvent_advances (s : Stamp) (howns : ∃ x, s.id.owns x = true)
    (hpeak : s.event.peak < U64.max) :
    (PointwiseLe s.event s.recordEvent.event ∧ ¬ PointwiseLe s.recordEvent.event s.event) ∧
      (∀ x, s.id.owns x = true → s.event.value x < s.recordEvent.event.value x) ∧
      (∀ x, s.id.owns x = false → s.recordEvent.event.value x = s.event.value x) ∧
      s.leq s.recordEvent = true ∧ s.recordEvent.leq s = false := by
  have hfill := peak_fill_le s.id hpeak
  have hafter := peak_normalize_le (fill s.id s.event)
  have hvalue : ∀ x, s.recordEvent.event.value x = (fill s.id s.event).value x := fun x =>
    value_normalize ((value_le_peak _ x).trans (by omega))
  have hraised : ∀ x, s.id.owns x = true → s.event.value x < s.recordEvent.event.value x := by
    intro x hx
    have := value_fill s.id hpeak x
    rwa [RaisedAt, if_pos hx, ← hvalue] at this
  have hsame : ∀ x, s.id.owns x = false → s.recordEvent.event.value x = s.event.value x := by
    intro x hx
    have := value_fill s.id hpeak x
    rwa [RaisedAt, hx, if_neg Bool.false_ne_true, ← hvalue] at this
  have hle : PointwiseLe s.event s.recordEvent.event := by
    intro x
    cases hx : s.id.owns x with
    | true => exact (hraised x hx).le
    | false => exact (hsame x hx).ge
  have hlt : ¬ PointwiseLe s.recordEvent.event s.event := by
    obtain ⟨x, hx⟩ := howns
    exact fun h => absurd (h x) (not_le.mpr (hraised x hx))
  have hmax : s.recordEvent.event.peak ≤ U64.max := by
    show (fill s.id s.event).normalize.peak ≤ U64.max
    omega
  refine ⟨⟨hle, hlt⟩, hraised, hsame, (leq_iff hpeak.le hmax).mpr ⟨hle, ?_⟩, ?_⟩
  · exact basesReach_normalize (by omega) (basesReach_fill s.id hpeak)
  · exact Bool.eq_false_iff.mpr fun h => hlt ((leq_iff hmax hpeak.le).mp h).1

theorem recordEvent_advances_half :
    (⟨.node (.leaf true) (.leaf false), .leaf 3⟩ : Stamp).leq
        (⟨.node (.leaf true) (.leaf false), .leaf 3⟩ : Stamp).recordEvent = true ∧
      (⟨.node (.leaf true) (.leaf false), .leaf 3⟩ : Stamp).recordEvent.event =
        .node 3 (.leaf 1) (.leaf 0) :=
  ⟨(recordEvent_advances _ ⟨fun _ => false, rfl⟩ (by decide)).2.2.2.1, rfl⟩

end Itc
end ElaraMesh
