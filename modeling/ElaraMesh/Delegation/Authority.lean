import ElaraMesh.Delegation.Registry

/-!
# Who ends a delegation

A revocation and an extension count only if the parent made them.  An authorization counts whoever
made it: it ends what was in force for the child, and the child has another parent.

## Main results

* `effect_keeps` — what keeps a delegation in force.
* `keptThroughout_iff` — delegations stay in force exactly if no child is taken over.
-/

namespace ElaraMesh.Delegation

open Record (Str ValidationRecord)
open Smt (Sha3)
open DelegationRegistry

/-! ### Runs -/

inductive Event where
  | record (r : ValidationRecord)
  | pruneExpired (now : F64)

namespace Action

/-- The parent makes a record about the child, or all its children are revoked. -/
def Ends (parent child : Str) : Action → Prop
  | authorize p c _ _ _ => p = parent ∧ c = child
  | revoke p c => p = parent ∧ c = child
  | extend _ _ _ => False
  | revokeAll p => p = parent

/-- An identity authorizes the child of another parent. -/
def TakesOver (g : DelegationRegistry) : Action → Prop
  | authorize p c _ _ _ => ∃ d, g.parentOf c = some d ∧ d.parent ≠ p
  | _ => False

end Action

section

variable [Sha3]

/-- A record that is refused leaves the registry as it is, and so does one that panics. -/
def step (g : DelegationRegistry) : Event → DelegationRegistry
  | .record r => (processRecord g r).getD g
  | .pruneExpired now => (g.pruneExpired now).1

def run (events : List Event) : DelegationRegistry := events.foldl step .new

namespace Event

def effect (child : Str) (before : Option ActiveDelegation) : Event → Option ActiveDelegation
  | record r => (actionOf r).elim before (Action.effect child before)
  | pruneExpired now => before.filter fun d => !d.expiresAt.any fun exp => exp.lt now

/-- What may end the delegation of a child by a parent; a lease ends as well. -/
def Ends (g : DelegationRegistry) (parent child : Str) : Event → Prop
  | record r => ∃ a, actionOf r = some a ∧ a.Ends parent child
  | pruneExpired now => ∃ d, g.parentOf child = some d ∧ d.expiresAt.any (fun exp => exp.lt now) = true

def TakesOver (g : DelegationRegistry) : Event → Prop
  | record r => ∃ a, actionOf r = some a ∧ a.TakesOver g
  | pruneExpired _ => False

end Event

/-- The delegation of a child stays in force, with its parent and its scope, until it is ended. -/
def KeptThroughout (events : List Event) : Prop :=
  ∀ before middle, before ++ middle <+: events → ∀ child d,
    (run before).parentOf child = some d →
    (∀ m e, m ++ [e] <+: middle → ¬ e.Ends (run (before ++ m)) d.parent child) →
    ∃ d', (run (before ++ middle)).parentOf child = some d' ∧ d'.parent = d.parent ∧
      d'.scope = d.scope

end

/-! ### The effect of an event -/

variable {g : DelegationRegistry} {child : Str} {d : ActiveDelegation}

theorem effect_of_panics {a : Action} (h : a.Panics g) (c : Str) :
    a.effect c (g.parentOf c) = g.parentOf c := by
  cases a with
  | authorize | extend | revokeAll => exact h.elim
  | revoke parent child =>
    obtain ⟨d, hd, hother, -⟩ := h
    by_cases hc : c = child
    · rw [Action.effect, if_pos hc, hc, hd, Option.filter_some, if_pos (decide_eq_true hother)]
    · rw [Action.effect, if_neg hc]

/-- What neither ends a delegation nor takes the child over keeps it in force. -/
theorem Action.effect_keeps {a : Action} (hd : g.parentOf child = some d)
    (hends : ¬ a.Ends d.parent child) (hover : ¬ a.TakesOver g) :
    ∃ d', a.effect child (some d) = some d' ∧ d'.parent = d.parent ∧ d'.scope = d.scope := by
  cases a with
  | authorize p c scope created expiresAt =>
    -- it is not for the child: neither the parent made it, nor somebody else
    refine ⟨d, if_neg ?_, rfl, rfl⟩
    rintro rfl
    by_cases hp : d.parent = p
    · exact hends ⟨hp.symm, rfl⟩
    · exact hover ⟨d, hd, hp⟩
  | revoke p c =>
    refine ⟨d, ?_, rfl, rfl⟩
    rw [effect]
    split
    · next hc =>
      have hp : d.parent ≠ p := fun hp => hends ⟨hp.symm, hc.symm⟩
      rw [Option.filter_some, if_pos (decide_eq_true hp)]
    · rfl
  | extend p c expiresAt =>
    rw [effect]
    split
    · rw [Option.map_some]
      split
      · exact ⟨_, rfl, rfl, rfl⟩
      · exact ⟨_, rfl, rfl, rfl⟩
    · exact ⟨d, rfl, rfl, rfl⟩
  | revokeAll p =>
    have hp : d.parent ≠ p := fun hp => hends hp.symm
    exact ⟨d, by rw [effect, Option.filter_some, if_pos (decide_eq_true hp)], rfl, rfl⟩

section

variable [Sha3] {e : Event}

theorem step_spec (hg : Mirrored g) (e : Event) :
    Mirrored (step g e) ∧ ∀ c, (step g e).parentOf c = e.effect c (g.parentOf c) := by
  cases e with
  | pruneExpired now => exact ⟨mirrored_pruneExpired hg now, parentOf_pruneExpired g now⟩
  | record r =>
    simp only [step, Event.effect, processRecord_eq]
    cases actionOf r with
    | none => exact ⟨hg, fun _ => rfl⟩
    | some a =>
      simp only [Option.elim_some]
      cases ha : a.perform g with
      | none => exact ⟨hg, fun c => (effect_of_panics (Action.perform_eq_none_iff.mp ha) c).symm⟩
      | some g' => exact Action.perform_spec hg ha

theorem mirrored_run (events : List Event) : Mirrored (run events) :=
  Runs.forall_state (J := Mirrored) (fun _ e h => (step_spec h e).1) mirrored_new events

theorem parentOf_run_concat (events : List Event) (e : Event) (c : Str) :
    (run (events ++ [e])).parentOf c = e.effect c ((run events).parentOf c) := by
  rw [run, List.foldl_concat]
  exact (step_spec (mirrored_run events) e).2 c

theorem Event.effect_keeps (hd : g.parentOf child = some d) (hends : ¬ e.Ends g d.parent child)
    (hover : ¬ e.TakesOver g) :
    ∃ d', e.effect child (some d) = some d' ∧ d'.parent = d.parent ∧ d'.scope = d.scope := by
  cases e with
  | pruneExpired now =>
    have hlease : ¬ d.expiresAt.any (fun exp => exp.lt now) = true := fun h => hends ⟨d, hd, h⟩
    refine ⟨d, ?_, rfl, rfl⟩
    rw [Event.effect, Option.filter_some, Bool.eq_false_iff.mpr hlease]
    rfl
  | record r =>
    simp only [Event.effect]
    cases ha : actionOf r with
    | none => exact ⟨d, rfl, rfl, rfl⟩
    | some a =>
      exact Action.effect_keeps hd (fun h => hends ⟨a, ha, h⟩) fun h => hover ⟨a, ha, h⟩

/-- A child that is taken over has another parent, and nothing has ended what was in force. -/
theorem exists_lost_of_takesOver (hg : Mirrored g) (h : e.TakesOver g) :
    ∃ child d d', g.parentOf child = some d ∧ ¬ e.Ends g d.parent child ∧
      (step g e).parentOf child = some d' ∧ d'.parent ≠ d.parent := by
  cases e with
  | pruneExpired now => exact h.elim
  | record r =>
    obtain ⟨a, ha, hover⟩ := h
    cases a with
    | revoke | extend | revokeAll => exact hover.elim
    | authorize p c scope created expiresAt =>
      obtain ⟨d, hd, hp⟩ := hover
      refine ⟨c, d, ⟨p, scope, created, some expiresAt⟩, hd, ?_, ?_, hp.symm⟩
      · rintro ⟨a', ha', hends⟩
        cases ha.symm.trans ha'
        exact hp hends.1.symm
      · rw [(step_spec hg _).2, Event.effect, ha]
        exact if_pos rfl

/-- A delegation whose child is taken over is not kept. -/
theorem not_keptThroughout_of_takesOver {events : List Event} (before : List Event)
    (hpre : before ++ [e] <+: events) (hover : e.TakesOver (run before)) :
    ¬ KeptThroughout events := by
  intro h
  obtain ⟨child, d, d', hd, hends, hd', hne⟩ :=
    exists_lost_of_takesOver (mirrored_run before) hover
  have hsingle : ∀ m e', m ++ [e'] <+: [e] → ¬ e'.Ends (run (before ++ m)) d.parent child := by
    refine (Runs.forall_splits_concat_iff [] e).mpr ⟨fun m e' hm => ?_, ?_⟩
    · exact absurd (List.prefix_nil.mp hm) (List.concat_ne_nil _ _)
    · rwa [List.append_nil]
  obtain ⟨d'', hd'', hparent, -⟩ := h before [e] hpre child d hd hsingle
  rw [run, List.foldl_concat] at hd''
  cases hd'.symm.trans hd''
  exact hne hparent

/-- **Who ends a delegation**: every delegation stays in force until its parent, the revocation of
all children or the end of the lease ends it, exactly if nobody authorizes the child of another
parent. -/
theorem keptThroughout_iff (events : List Event) : KeptThroughout events ↔
    ∀ before e, before ++ [e] <+: events → ¬ e.TakesOver (run before) := by
  constructor
  · exact fun h before e hpre hover => not_keptThroughout_of_takesOver before hpre hover h
  · intro h before middle hpre child d hd
    -- the delegation is in force after each part of the events in between
    induction middle using List.reverseRecOn with
    | nil => exact fun _ => ⟨d, by rwa [List.append_nil], rfl, rfl⟩
    | append_singleton middle e ih =>
      intro hends
      rw [← List.append_assoc] at hpre
      obtain ⟨d₁, hd₁, hparent, hscope⟩ := ih ((List.prefix_append _ _).trans hpre)
        fun m e' hm => hends m e' (hm.trans (List.prefix_append _ _))
      have hend := hends middle e (List.prefix_refl _)
      rw [← hparent] at hend
      obtain ⟨d₂, hd₂, hparent', hscope'⟩ := Event.effect_keeps hd₁ hend (h _ e hpre)
      refine ⟨d₂, ?_, hparent'.trans hparent, hscope'.trans hscope⟩
      rw [← List.append_assoc, parentOf_run_concat, hd₁]
      exact hd₂

end

/-! ### A child is taken over -/

section Samples

attribute [local instance] Smt.guardedSha3

def device : Str := .text "device"

/-- A gateway, by its key, authorizes the device. -/
def authorizationBy (id : String) (key : UInt8) (seconds : ℕ) : ValidationRecord :=
  { Ledger.plainRecord id key seconds with
    metadata := [(.text "delegation_child", .string device),
      (delegationOpKey, .string (.text "authorize"))] }

/-- The second gateway authorizes the device of the first one, and has it. -/
theorem device_taken_over :
    ((run [.record (authorizationBy "a" 1 0)]).parentOf device).map (·.parent) =
        some (Record.sha3Hex [1]) ∧
      ((run [.record (authorizationBy "a" 1 0), .record (authorizationBy "b" 2 1)]).parentOf
        device).map (·.parent) = some (Record.sha3Hex [2]) ∧
      Record.sha3Hex [1] ≠ Record.sha3Hex [2] ∧
      ¬ KeptThroughout [.record (authorizationBy "a" 1 0), .record (authorizationBy "b" 2 1)] := by
  have hfirst : ((run [.record (authorizationBy "a" 1 0)]).parentOf device).map (·.parent) =
      some (Record.sha3Hex [1]) := by decide +kernel
  have hne : Record.sha3Hex [1] ≠ Record.sha3Hex [2] := by decide +kernel
  refine ⟨hfirst, by decide +kernel, hne,
    not_keptThroughout_of_takesOver [.record (authorizationBy "a" 1 0)] (List.prefix_refl _) ?_⟩
  obtain ⟨d, hd, hparent⟩ := Option.map_eq_some_iff.mp hfirst
  have haction : actionOf (authorizationBy "b" 2 1) = some (.authorize (Record.sha3Hex [2]) device
      .full (.ofNat 1) (defaultExpiresAt (.ofNat 1))) := by decide +kernel
  refine ⟨_, haction, d, hd, ?_⟩
  rw [hparent]
  exact hne

end Samples

end ElaraMesh.Delegation
