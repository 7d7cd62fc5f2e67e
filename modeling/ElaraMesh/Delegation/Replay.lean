import ElaraMesh.Delegation.Registry

/-!
# The order of delegation records

A node applies the records in the order in which they arrive, and at a restart in the order of their
timestamps.  An authorization replaces what was in force, and a revocation or an extension does
nothing if the authorization is not there yet.

## Main results

* `reflects_run` — a registry of undisturbed records has the terms that they put in force.
* `orderIndependent_iff` — the order does not matter exactly if the records are undisturbed.
-/

namespace ElaraMesh.Delegation

open Record (Str ValidationRecord)
open Ledger (Piece creatorIdentityHash Earlier)
open Smt (Sha3)
open DelegationRegistry

/-! ### Terms -/

structure Terms where
  parent : Str
  scope : DelegationScope
  expiresAt : Option F64
  deriving DecidableEq

def ActiveDelegation.terms (d : ActiveDelegation) : Terms := ⟨d.parent, d.scope, d.expiresAt⟩

def DelegationRegistry.termsOf (g : DelegationRegistry) (child : Str) : Option Terms :=
  (g.parentOf child).map ActiveDelegation.terms

/-- What changes the terms of a child, or panics on them. -/
def Action.Disturbs (child : Str) (t : Terms) : Action → Prop
  | authorize p c scope _ expiresAt => c = child ∧ (⟨p, scope, some expiresAt⟩ : Terms) ≠ t
  | revoke p c => c = child ∧ (p = t.parent ∨ (Piece.clip child).prints = false)
  | extend p c expiresAt => c = child ∧ p = t.parent ∧ t.expiresAt ≠ some expiresAt
  | revokeAll p => p = t.parent

section

variable [Sha3]

/-- A record puts terms in force for a child. -/
def Authorizes (r : ValidationRecord) (child : Str) (t : Terms) : Prop :=
  ∃ created expiresAt, t.expiresAt = some expiresAt ∧
    actionOf r = some (.authorize t.parent child t.scope created expiresAt)

/-- No record disturbs what another one puts in force. -/
def Undisturbed (records : List ValidationRecord) : Prop :=
  ∀ r ∈ records, ∀ child t, Authorizes r child t →
    ∀ r' ∈ records, ∀ a, actionOf r' = some a → ¬ a.Disturbs child t

/-- The records give the terms of a restart, in whatever order they arrive. -/
def OrderIndependent (records : List ValidationRecord) : Prop :=
  ∀ arrival, arrival.Perm records → ∃ g g₀, processRecords .new arrival = some g ∧
    rebuildDelegationRegistryFromRecords records = some g₀ ∧
    ∀ child, g.termsOf child = g₀.termsOf child

end

/-! ### One action -/

variable {g g' : DelegationRegistry} {a : Action} {child : Str} {d : ActiveDelegation} {t : Terms}

theorem terms_effect_of_not_disturbs (h : ¬ a.Disturbs child d.terms) :
    (a.effect child (some d)).map ActiveDelegation.terms = some d.terms := by
  cases a with
  | authorize p c scope created expiresAt =>
    rw [Action.effect]
    split
    · next hc =>
      have hterms : (⟨p, scope, some expiresAt⟩ : Terms) = d.terms :=
        not_not.mp fun hne => h ⟨hc.symm, hne⟩
      rw [← hterms]
      rfl
    · rfl
  | revoke p c =>
    rw [Action.effect]
    split
    · next hc =>
      have hp : d.parent ≠ p := fun hp => h ⟨hc.symm, .inl hp.symm⟩
      rw [Option.filter_some, if_pos (decide_eq_true hp), Option.map_some]
    · rfl
  | extend p c expiresAt =>
    rw [Action.effect]
    split
    · next hc =>
      rw [Option.map_some, Option.map_some]
      split
      · next hp =>
        have hsame : d.expiresAt = some expiresAt :=
          not_not.mp fun hne => h ⟨hc.symm, hp.symm, hne⟩
        rw [ActiveDelegation.terms, ActiveDelegation.terms, hsame]
      · rfl
    · rfl
  | revokeAll p =>
    have hp : d.parent ≠ p := fun hp => h hp.symm
    rw [Action.effect, Option.filter_some, if_pos (decide_eq_true hp), Option.map_some]

/-- What disturbs the terms of a child changes them, unless it panics. -/
theorem terms_effect_of_disturbs (hd : g.parentOf child = some d) (h : a.Disturbs child d.terms)
    (hpanics : ¬ a.Panics g) :
    (a.effect child (some d)).map ActiveDelegation.terms ≠ some d.terms := by
  cases a with
  | authorize p c scope created expiresAt =>
    rw [Action.effect, if_pos h.1.symm]
    exact fun heq => h.2 (Option.some.inj heq)
  | revoke p c =>
    obtain ⟨rfl, hp⟩ := h
    have hown : d.parent = p := by
      by_contra hother
      rcases hp with hp | hcut
      · exact hother hp.symm
      · exact hpanics ⟨d, hd, hother, fun hprints => Bool.false_ne_true (hcut.symm.trans hprints.2)⟩
    rw [Action.effect, if_pos rfl, Option.filter_some, if_neg (by simp [hown])]
    exact (Option.some_ne_none _).symm
  | extend p c expiresAt =>
    obtain ⟨rfl, hp, hne⟩ := h
    have hown : d.parent = p := hp.symm
    rw [Action.effect, if_pos rfl, Option.map_some, if_pos hown, Option.map_some]
    exact fun heq => hne (congrArg Terms.expiresAt (Option.some.inj heq)).symm
  | revokeAll p =>
    have hp : d.parent = p := Eq.symm h
    rw [Action.effect, Option.filter_some, if_neg (by simp [hp])]
    exact (Option.some_ne_none _).symm

/-! ### One record -/

section

variable [Sha3] {r r' : ValidationRecord} {l records : List ValidationRecord} {t' : Terms}

theorem prints_creatorIdentityHash (r : ValidationRecord) :
    (Piece.clip (creatorIdentityHash r)).prints = true := by
  have hascii : ∀ b ∈ (creatorIdentityHash r).bytes.take 16, b < 0x80 := by
    intro b hb
    obtain ⟨c, -, hb⟩ := List.mem_flatMap.mp (List.mem_of_mem_take hb)
    exact (Record.hexPair_ascii c b hb).1
  have hvalid := Record.utf8Error_of_ascii hascii 0
  rw [Piece.prints, Str.fromUtf8]
  split
  · rfl
  · next h => exact absurd (hvalid.symm.trans h) (Option.some_ne_none _).symm

/-- Terms are put in force by the parent. -/
theorem parent_of_authorizes (h : Authorizes r child t) : t.parent = creatorIdentityHash r := by
  obtain ⟨created, expiresAt, -, h⟩ := h
  unfold actionOf at h
  split at h
  · cases h
  · dsimp only at h
    split at h
    · exact (Action.authorize.inj (Option.some.inj h)).1.symm
    · cases h
    · cases hexp : extractExpiresAt r with
      | none =>
        rw [hexp] at h
        cases h
      | some e =>
        rw [hexp] at h
        cases h
    · cases h
  · split at h <;> cases h

theorem terms_effect_none (h : actionOf r = some a) (child : Str) :
    (a.effect child none).map ActiveDelegation.terms = some t ↔ Authorizes r child t := by
  have hother : (∀ p c scope created expiresAt, a ≠ .authorize p c scope created expiresAt) →
      ¬ Authorizes r child t := by
    rintro hne ⟨created, expiresAt, -, heq⟩
    exact hne _ _ _ _ _ (Option.some.inj (h.symm.trans heq))
  cases a with
  | authorize p c scope created expiresAt =>
    rw [Action.effect]
    constructor
    · split
      · next hc =>
        intro heq
        rw [← Option.some.inj heq, hc]
        exact ⟨created, expiresAt, rfl, h⟩
      · exact fun heq => absurd heq.symm (Option.some_ne_none _)
    · rintro ⟨created', expiresAt', hexp, heq⟩
      cases h.symm.trans heq
      rw [if_pos rfl, Option.map_some, ActiveDelegation.terms, ← hexp]
  | revoke p c =>
    rw [Action.effect, Option.filter_none, ite_self]
    exact iff_of_false (Option.some_ne_none _).symm (hother fun _ _ _ _ _ => Action.noConfusion)
  | extend p c expiresAt =>
    rw [Action.effect, Option.map_none, ite_self]
    exact iff_of_false (Option.some_ne_none _).symm (hother fun _ _ _ _ _ => Action.noConfusion)
  | revokeAll p =>
    exact iff_of_false (Option.some_ne_none _).symm (hother fun _ _ _ _ _ => Action.noConfusion)

/-- The directions go together, and a child has the terms that the records put in force. -/
structure Reflects (g : DelegationRegistry) (l : List ValidationRecord) : Prop where
  mirrored : Mirrored g
  termsOf_iff : ∀ child t, g.termsOf child = some t ↔ ∃ r ∈ l, Authorizes r child t

theorem reflects_new : Reflects .new [] :=
  ⟨mirrored_new, fun _ _ => iff_of_false (Option.some_ne_none _).symm fun ⟨_, h, _⟩ => by cases h⟩

theorem Undisturbed.mono (h : Undisturbed records) (hl : ∀ r ∈ l, r ∈ records) : Undisturbed l :=
  fun r hr child t hauth r' hr' => h r (hl r hr) child t hauth r' (hl r' hr')

/-- Undisturbed records put only one kind of terms in force for a child. -/
theorem Undisturbed.terms_unique (h : Undisturbed l) (hr : r ∈ l) (hr' : r' ∈ l)
    (hauth : Authorizes r child t) (hauth' : Authorizes r' child t') : t' = t := by
  obtain ⟨created, expiresAt, hexp, haction⟩ := hauth'
  have hsame := h r hr child t hauth r' hr' _ haction
  have heq : (⟨t'.parent, t'.scope, some expiresAt⟩ : Terms) = t :=
    not_not.mp fun hne => hsame ⟨rfl, hne⟩
  rw [← heq, ← hexp]

theorem Reflects.not_panics (hg : Reflects g l) (hl : Undisturbed (l ++ [r]))
    (ha : actionOf r = some a) : ¬ a.Panics g := by
  cases a with
  | authorize | extend | revokeAll => exact id
  | revoke p c =>
    rintro ⟨d, hd, -, hcut⟩
    obtain ⟨r₀, hr₀, hauth⟩ := (hg.termsOf_iff c d.terms).mp (congrArg (Option.map _) hd)
    -- the name of the parent can be cut, so that of the child cannot
    have hparent : (Piece.clip d.parent).prints = true := by
      rw [show d.parent = creatorIdentityHash r₀ from parent_of_authorizes hauth]
      exact prints_creatorIdentityHash r₀
    refine hl r₀ (List.mem_append_left _ hr₀) c d.terms hauth r (List.mem_concat_self ..) _ ha ?_
    exact ⟨rfl, .inr (Bool.eq_false_iff.mpr fun hchild => hcut ⟨hparent, hchild⟩)⟩

theorem Reflects.step (hg : Reflects g l) (hl : Undisturbed (l ++ [r])) :
    ∃ g', processRecord g r = some g' ∧ Reflects g' (l ++ [r]) := by
  have hlast : r ∈ l ++ [r] := List.mem_concat_self ..
  rw [processRecord_eq]
  cases ha : actionOf r with
  | none =>
    have hnone : ∀ child t, ¬ Authorizes r child t := by
      rintro child t ⟨created, expiresAt, -, h⟩
      rw [ha] at h
      cases h
    refine ⟨g, rfl, hg.mirrored, fun child t => (hg.termsOf_iff child t).trans ?_⟩
    simp [or_and_right, exists_or, hnone]
  | some a =>
    obtain ⟨g', hg'⟩ := Option.ne_none_iff_exists'.mp
      (mt Action.perform_eq_none_iff.mp (hg.not_panics hl ha))
    obtain ⟨hmirrored, heffect⟩ := Action.perform_spec hg.mirrored hg'
    refine ⟨g', hg', hmirrored, fun child t => ?_⟩
    rw [termsOf, heffect]
    cases hd : g.parentOf child with
    | none =>
      -- the record alone decides
      have hbefore : ¬ ∃ r ∈ l, Authorizes r child t := by
        rw [← hg.termsOf_iff, termsOf, hd]
        exact (Option.some_ne_none t).symm
      rw [terms_effect_none ha]
      refine ⟨fun h => ⟨r, hlast, h⟩, ?_⟩
      rintro ⟨r', hr', hauth⟩
      rcases List.mem_append.mp hr' with hr' | hr'
      · exact absurd ⟨r', hr', hauth⟩ hbefore
      · rwa [List.mem_singleton.mp hr'] at hauth
    | some d =>
      -- the terms are there already, and stay
      obtain ⟨r₀, hr₀, hauth₀⟩ := (hg.termsOf_iff child d.terms).mp (congrArg (Option.map _) hd)
      have hr₀ : r₀ ∈ l ++ [r] := List.mem_append_left _ hr₀
      rw [terms_effect_of_not_disturbs (hl r₀ hr₀ child _ hauth₀ r hlast a ha), Option.some.injEq]
      constructor
      · rintro rfl
        exact ⟨r₀, hr₀, hauth₀⟩
      · rintro ⟨r', hr', hauth⟩
        exact (hl.terms_unique hr₀ hr' hauth₀ hauth).symm

/-! ### All records -/

theorem processRecords_concat (g : DelegationRegistry) (l : List ValidationRecord)
    (r : ValidationRecord) :
    processRecords g (l ++ [r]) = (processRecords g l).bind (processRecord · r) := by
  unfold processRecords
  rw [List.foldlM_append]
  refine congrArg (Option.bind _) (funext fun g' => ?_)
  exact List.foldlM_cons.trans (bind_pure _)

/-- **A registry of undisturbed records has the terms that they put in force.** -/
theorem reflects_run (hl : Undisturbed l) : ∃ g, processRecords .new l = some g ∧ Reflects g l := by
  induction l using List.reverseRecOn with
  | nil => exact ⟨.new, rfl, reflects_new⟩
  | append_singleton l r ih =>
    obtain ⟨g, hg, hreflects⟩ := ih (hl.mono fun _ => List.mem_append_left _)
    obtain ⟨g', hg', hreflects'⟩ := hreflects.step hl
    refine ⟨g', ?_, hreflects'⟩
    rw [processRecords_concat, hg]
    exact hg'

theorem mirrored_processRecord (hg : Mirrored g) (h : processRecord g r = some g') :
    Mirrored g' := by
  rw [processRecord_eq] at h
  cases ha : actionOf r with
  | none =>
    rw [ha] at h
    cases h
    exact hg
  | some a =>
    rw [ha] at h
    exact (Action.perform_spec hg h).1

theorem mirrored_processRecords (h : processRecords .new l = some g) : Mirrored g := by
  induction l using List.reverseRecOn generalizing g with
  | nil =>
    cases h
    exact mirrored_new
  | append_singleton l r ih =>
    rw [processRecords_concat] at h
    obtain ⟨g₁, hg₁, hstep⟩ := Option.bind_eq_some_iff.mp h
    exact mirrored_processRecord (ih hg₁) hstep

/-- An authorization puts its terms in force, whatever was before. -/
theorem termsOf_of_authorizes (hg : Mirrored g) (hauth : Authorizes r child t)
    (h : processRecord g r = some g') : g'.termsOf child = some t := by
  obtain ⟨created, expiresAt, hexp, ha⟩ := hauth
  rw [processRecord_eq, ha, Option.elim_some] at h
  rw [termsOf, (Action.perform_spec hg h).2, Action.effect, if_pos rfl, Option.map_some,
    ActiveDelegation.terms, ← hexp]

theorem termsOf_of_disturbs (hg : Mirrored g) (hterms : g.termsOf child = some t)
    (ha : actionOf r = some a) (hdisturbs : a.Disturbs child t) (h : processRecord g r = some g') :
    g'.termsOf child ≠ some t := by
  rw [processRecord_eq, ha, Option.elim_some] at h
  obtain ⟨d, hd, rfl⟩ := Option.map_eq_some_iff.mp hterms
  rw [termsOf, (Action.perform_spec hg h).2, hd]
  refine terms_effect_of_disturbs hd hdisturbs fun hpanics => ?_
  exact Option.some_ne_none _ (h.symm.trans (Action.perform_eq_none_iff.mpr hpanics))

omit [Sha3] in
/-- Two records can come last, in either order. -/
theorem exists_perm_pair (hr : r ∈ records) (hr' : r' ∈ records) (hne : r ≠ r') :
    ∃ rest, (rest ++ [r] ++ [r']).Perm records ∧ (rest ++ [r'] ++ [r]).Perm records := by
  obtain ⟨s, u, rfl⟩ := List.append_of_mem hr
  have hrest : r' ∈ s ++ u := by
    rcases List.mem_append.mp hr' with h | h
    · exact List.mem_append_left _ h
    · exact List.mem_append_right _ ((List.mem_cons.mp h).resolve_left hne.symm)
  obtain ⟨s', u', hsplit⟩ := List.append_of_mem hrest
  have hperm : (r :: r' :: (s' ++ u')).Perm (s ++ r :: u) := by
    refine .trans (.cons r ?_) List.perm_middle.symm
    rw [hsplit]
    exact List.perm_middle.symm
  refine ⟨s' ++ u', ?_, ?_⟩
  · rw [List.append_assoc]
    exact List.perm_append_comm.trans hperm
  · rw [List.append_assoc]
    exact List.perm_append_comm.trans ((List.Perm.swap r r' _).trans hperm)

/-- **When the order does not matter**: every order of arrival gives the terms of a restart exactly
if no record disturbs what another one puts in force. -/
theorem orderIndependent_iff (records : List ValidationRecord) :
    OrderIndependent records ↔ Undisturbed records := by
  constructor
  · intro h r hr child t hauth r' hr' a ha hdisturbs
    have hne : r ≠ r' := by
      rintro rfl
      obtain ⟨created, expiresAt, hexp, haction⟩ := hauth
      cases ha.symm.trans haction
      exact hdisturbs.2 (by rw [← hexp])
    obtain ⟨rest, hlast, hfirst⟩ := exists_perm_pair hr hr' hne
    -- the authorization comes last: its terms are in force
    obtain ⟨g₁, g₀, hg₁, hg₀, hterms₁⟩ := h _ hfirst
    rw [processRecords_concat] at hg₁
    obtain ⟨k₁, hk₁, hstep₁⟩ := Option.bind_eq_some_iff.mp hg₁
    have hin := termsOf_of_authorizes (mirrored_processRecords hk₁) hauth hstep₁
    -- it comes before the other record: they are not
    obtain ⟨g₂, g₀', hg₂, hg₀', hterms₂⟩ := h _ hlast
    cases hg₀.symm.trans hg₀'
    rw [processRecords_concat] at hg₂
    obtain ⟨k₂, hk₂, hstep₂⟩ := Option.bind_eq_some_iff.mp hg₂
    have hmirrored := mirrored_processRecords hk₂
    rw [processRecords_concat] at hk₂
    obtain ⟨k₃, hk₃, hstep₃⟩ := Option.bind_eq_some_iff.mp hk₂
    have hbefore := termsOf_of_authorizes (mirrored_processRecords hk₃) hauth hstep₃
    refine termsOf_of_disturbs hmirrored hbefore ha hdisturbs hstep₂ ?_
    rw [hterms₂, ← hterms₁, hin]
  · intro h arrival hperm
    have hsorted := List.perm_insertionSort Earlier records
    obtain ⟨g, hg, hreflects⟩ := reflects_run (h.mono fun r => hperm.mem_iff.mp)
    obtain ⟨g₀, hg₀, hreflects₀⟩ := reflects_run (h.mono fun r => hsorted.mem_iff.mp)
    refine ⟨g, g₀, hg, hg₀, fun child => Option.ext fun t => ?_⟩
    rw [hreflects.termsOf_iff, hreflects₀.termsOf_iff]
    simp only [hperm.mem_iff, hsorted.mem_iff]

end

/-! ### A revocation that comes too early -/

section Samples

attribute [local instance] Smt.guardedSha3

/-- A gateway authorizes a device, and later revokes it. -/
def ownRecords : List ValidationRecord :=
  [{ Ledger.plainRecord "a" 1 0 with
      metadata := [(.text "delegation_child", .string (.text "device")),
        (delegationOpKey, .string (.text "authorize"))] },
    { Ledger.plainRecord "b" 1 1 with
      metadata := [(.text "delegation_child", .string (.text "device")),
        (delegationOpKey, .string (.text "revoke"))] }]

/-- If the revocation arrives first, the device stays authorized until a restart. -/
theorem early_revocation_lost :
    ((processRecords .new ownRecords.reverse).bind (·.termsOf (.text "device"))).isSome = true ∧
      rebuildDelegationRegistryFromRecords ownRecords ≠ none ∧
      (rebuildDelegationRegistryFromRecords ownRecords).bind (·.termsOf (.text "device")) = none := by
  decide +kernel

end Samples

end ElaraMesh.Delegation
