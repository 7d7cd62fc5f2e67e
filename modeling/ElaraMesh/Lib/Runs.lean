import Mathlib.Data.List.Infix

/-!
# Conditions on the steps of a run

A run is a list of events, folded over a state.  A condition that every step meets, at the
state it starts from, is what makes an invariant hold in every state of the run.

## Main results

* `forall_state` — what holds at the start and is kept holds in the last state.
* `forall_prefixes` — an invariant that is kept by the steps that meet a condition.
* `forall_prefix_iff_of`, `forall_prefix_iff` — the same where the steps that do not meet it
  break the invariant.
* `forall_steps_cons_iff` — such a condition, step by step.
* `Tx.bind_eq_ok`, `Tx.map_eq_ok` — when steps that may fail do not.
-/

namespace Runs

variable {σ ε : Type} {step : σ → ε → σ} {J I : σ → Prop} {C : σ → ε → Prop} {s : σ}

theorem forall_state (hstep : ∀ s e, J s → J (step s e)) (hs : J s) (l : List ε) :
    J (l.foldl step s) := by
  induction l generalizing s with
  | nil => exact hs
  | cons e l ih => exact ih (hstep s e hs)

theorem forall_prefixes (hJ : ∀ s e, J s → J (step s e)) (hI : ∀ s e, J s → I s → C s e → I (step s e))
    (hs : J s) (hi : I s) {l : List ε} (hC : ∀ before e, before ++ [e] <+: l →
      C (before.foldl step s) e) (before : List ε) (hbefore : before <+: l) :
    I (before.foldl step s) := by
  induction before using List.reverseRecOn with
  | nil => exact hi
  | append_singleton before e ih =>
    rw [List.foldl_concat]
    have hpre : before <+: l := (List.prefix_append before [e]).trans hbefore
    exact hI _ e (forall_state hJ hs before) (ih hpre) (hC before e hbefore)

/-- A property of every state that the invariant gives, and that no step keeps which does not
meet the condition. -/
theorem forall_prefix_iff_of {P : σ → Prop} (hI : ∀ s e, I s → C s e → I (step s e))
    (hP : ∀ s, I s → P s) (hC : ∀ s e, I s → P (step s e) → C s e) (hi : I s) (l : List ε) :
    (∀ before, before <+: l → P (before.foldl step s)) ↔
      ∀ before e, before ++ [e] <+: l → C (before.foldl step s) e := by
  have hmet : ∀ before e, (∀ before', before' <+: before ++ [e] → P (before'.foldl step s)) →
      I (before.foldl step s) → C (before.foldl step s) e := by
    intro before e h hbefore
    have hafter := h (before ++ [e]) (List.prefix_refl _)
    rw [List.foldl_concat] at hafter
    exact hC _ e hbefore hafter
  constructor
  · intro h
    have hstate : ∀ before, before <+: l → I (before.foldl step s) := by
      intro before
      induction before using List.reverseRecOn with
      | nil => exact fun _ => hi
      | append_singleton before e ih =>
        intro hpre
        have hbefore := ih ((List.prefix_append before [e]).trans hpre)
        rw [List.foldl_concat]
        exact hI _ e hbefore (hmet before e (fun _ hp => h _ (hp.trans hpre)) hbefore)
    intro before e hpre
    exact hmet before e (fun _ hp => h _ (hp.trans hpre))
      (hstate before ((List.prefix_append before [e]).trans hpre))
  · intro hsteps before hpre
    exact hP _ (forall_prefixes (J := fun _ => True) (fun _ _ _ => trivial) (fun s e _ => hI s e)
      trivial hi hsteps before hpre)

theorem forall_prefix_iff (hJ : ∀ s e, J s → J (step s e))
    (hI : ∀ s e, J s → I s → (I (step s e) ↔ C s e)) (hs : J s) (hi : I s) (l : List ε) :
    (∀ before, before <+: l → I (before.foldl step s)) ↔
      ∀ before e, before ++ [e] <+: l → C (before.foldl step s) e := by
  constructor
  · intro h before e hpre
    have hafter := h (before ++ [e]) hpre
    rw [List.foldl_concat] at hafter
    have hbefore := h before ((List.prefix_append before [e]).trans hpre)
    exact (hI _ e (forall_state hJ hs before) hbefore).mp hafter
  · intro hC before hpre
    exact forall_prefixes hJ (fun s e hj hi => (hI s e hj hi).mpr) hs hi hC before hpre

/-- A condition on the steps of a run, step by step. -/
theorem forall_steps_cons_iff (s : σ) (e : ε) (l : List ε) :
    (∀ before e', before ++ [e'] <+: e :: l → C (before.foldl step s) e') ↔
      C s e ∧ ∀ before e', before ++ [e'] <+: l → C (before.foldl step (step s e)) e' := by
  constructor
  · intro h
    refine ⟨h [] e (List.prefix_append [e] l), fun before e' hpre => ?_⟩
    exact h (e :: before) e' (List.cons_prefix_cons.mpr ⟨rfl, hpre⟩)
  · rintro ⟨hfirst, hrest⟩ before e' hpre
    cases before with
    | nil =>
      rw [List.nil_append, List.cons_prefix_cons] at hpre
      rw [hpre.1]
      exact hfirst
    | cons b before =>
      rw [List.cons_append, List.cons_prefix_cons] at hpre
      rw [hpre.1]
      exact hrest before e' hpre.2

theorem forall_steps_nil (s : σ) :
    ∀ before e', before ++ [e'] <+: ([] : List ε) → C (before.foldl step s) e' :=
  fun _ _ h => absurd (List.prefix_nil.mp h) (List.concat_ne_nil _ _)

/-- The steps of a run that is longer by one. -/
theorem forall_splits_concat_iff {P : List ε → ε → Prop} (l : List ε) (e : ε) :
    (∀ before e', before ++ [e'] <+: l ++ [e] → P before e') ↔
      (∀ before e', before ++ [e'] <+: l → P before e') ∧ P l e := by
  constructor
  · intro h
    exact ⟨fun before e' hpre => h before e' (hpre.trans (List.prefix_append l [e])),
      h l e (List.prefix_refl _)⟩
  · rintro ⟨hsteps, hlast⟩ before e' hpre
    rcases List.prefix_concat_iff.mp hpre with heq | hpre
    · obtain ⟨rfl, hsingle⟩ := List.append_inj' heq rfl
      rw [List.singleton_inj.mp hsingle]
      exact hlast
    · exact hsteps before e' hpre

end Runs

/-! ### Steps that may fail -/

namespace Tx

variable {ε α β : Type}

/-- Two fallible steps in a row succeed. -/
theorem bind_eq_ok {x : Except ε α} {f : α → Except ε β} {b : β} :
    (x >>= f) = .ok b ↔ ∃ a, x = .ok a ∧ f a = .ok b := by
  cases x with
  | error e => simp [bind, Except.bind]
  | ok a => simp [bind, Except.bind]

/-- A fallible step with its result changed succeeds. -/
theorem map_eq_ok {x : Except ε α} {f : α → β} {b : β} :
    x.map f = .ok b ↔ ∃ a, x = .ok a ∧ f a = b := by
  cases x with
  | error e => simp [Except.map]
  | ok a => simp [Except.map]

end Tx
