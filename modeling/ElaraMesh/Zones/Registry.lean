import ElaraMesh.Zones.Transition

/-!
# The registry of the zones

The registry knows every zone that ever was: a zone is active, or it was split into two
others, or merged with one into another.  A record of a closed zone is routed along these
pointers to an active zone, for at most 64 steps.

Zones are opened under fresh names only, so that every walk ends at an active zone, however
long the history; but nothing bounds its length.

## Main results

* `Routed` — the active set is right, and every walk ends; kept by every seal (`Routed.apply`).
* `resolve_active_iff` — a walk ends at an active zone exactly if it has at most 64 steps.
-/

namespace ElaraMesh.Zones

open Record (Str ZoneId)
open Smt (Bytes32 Sha3)

inductive ZoneEntry where
  | active
  | split (effectiveEpoch : ℕ) (splitKey : Bytes32) (childLow childHigh : ZoneId)
  | merged (effectiveEpoch : ℕ) (peer mergedInto : ZoneId)
  deriving DecidableEq

structure ZoneRegistry where
  entries : Table ZoneId ZoneEntry
  active : Finset ZoneId
  appliedSeals : Finset Bytes32
  highestEffectiveEpoch : ℕ

/-- Why a seal is not applied, with what the message names. -/
inductive RegistryError where
  | splitCardinality (parents children : ℕ)
  | mergeCardinality (parents children : ℕ)
  | splitKeyMissing
  | splitParentNotActive (parent : ZoneId) (entry : ZoneEntry)
  | splitParentUnknown (parent : ZoneId)
  | splitChildKnown (child : ZoneId)
  | splitChildrenSame
  | mergeParentNotActive (parent : ZoneId) (entry : ZoneEntry)
  | mergeParentUnknown (parent : ZoneId)
  | mergeChildKnown (child : ZoneId)
  deriving DecidableEq

namespace ZoneRegistry

def new : ZoneRegistry := ⟨∅, ∅, ∅, 0⟩

def withGenesis (zones : List ZoneId) : ZoneRegistry :=
  zones.foldl
    (fun reg z => { reg with entries := reg.entries.insert z .active, active := insert z reg.active })
    new

def isActive (reg : ZoneRegistry) (z : ZoneId) : Bool := reg.entries.lookup z = some .active

def Known (reg : ZoneRegistry) (z : ZoneId) : Prop := (reg.entries.lookup z).isSome

/-- The most steps of a walk. -/
def maxResolveDepth : ℕ := 64

def next (routingKey : Bytes32) : ZoneEntry → Option ZoneId
  | .active => none
  | .split _ splitKey childLow childHigh =>
    some (if routingKey.data < splitKey.data then childLow else childHigh)
  | .merged _ _ mergedInto => some mergedInto

/-- Follow the pointers for some steps. -/
def walk (reg : ZoneRegistry) (routingKey : Bytes32) : ℕ → ZoneId → ZoneId
  | 0, current => current
  | n + 1, current =>
    match (reg.entries.lookup current).bind (next routingKey) with
    | none => current
    | some z => walk reg routingKey n z

/-- The current leaf of a zone. -/
def resolve (reg : ZoneRegistry) (start : ZoneId) (routingKey : Bytes32) : ZoneId :=
  reg.walk routingKey maxResolveDepth start

/-- Close a zone for two others. -/
def applySplit (reg : ZoneRegistry) (t : TransitionSeal) (parent childLow childHigh : ZoneId) :
    Except RegistryError ZoneRegistry :=
  match t.splitKey with
  | none => .error .splitKeyMissing
  | some splitKey =>
    match reg.entries.lookup parent with
    | none => .error (.splitParentUnknown parent)
    | some .active =>
      if (reg.entries.lookup childLow).isSome then .error (.splitChildKnown childLow)
      else if (reg.entries.lookup childHigh).isSome then .error (.splitChildKnown childHigh)
      else if childLow = childHigh then .error .splitChildrenSame
      else
        .ok { reg with
          entries := ((reg.entries.insert parent
            (.split t.effectiveEpoch splitKey childLow childHigh)).insert childLow .active).insert
              childHigh .active
          active := insert childHigh (insert childLow (reg.active.erase parent)) }
    | some other => .error (.splitParentNotActive parent other)

def checkMergeParent (reg : ZoneRegistry) (p : ZoneId) : Except RegistryError Unit :=
  match reg.entries.lookup p with
  | some .active => .ok ()
  | some other => .error (.mergeParentNotActive p other)
  | none => .error (.mergeParentUnknown p)

/-- Close two zones for another. -/
def applyMerge (reg : ZoneRegistry) (t : TransitionSeal) (parentA parentB child : ZoneId) :
    Except RegistryError ZoneRegistry := do
  reg.checkMergeParent parentA
  reg.checkMergeParent parentB
  if (reg.entries.lookup child).isSome then throw (.mergeChildKnown child)
  return { reg with
    entries := ((reg.entries.insert parentA (.merged t.effectiveEpoch parentB child)).insert
      parentB (.merged t.effectiveEpoch parentA child)).insert child .active
    active := insert child ((reg.active.erase parentA).erase parentB) }

section Apply

variable [SealJson] [Sha3]

def applied (reg : ZoneRegistry) (t : TransitionSeal) : ZoneRegistry :=
  { reg with
    appliedSeals := insert t.sealHashForSig reg.appliedSeals
    highestEffectiveEpoch := max reg.highestEffectiveEpoch t.effectiveEpoch }

/-- Apply a finalized seal; one that was applied before does nothing. -/
def applyTransition (reg : ZoneRegistry) (t : TransitionSeal) : Except RegistryError ZoneRegistry :=
  match t.kind, t.parents, t.children with
  | .split, [parent], [low, high] =>
    if t.sealHashForSig ∈ reg.appliedSeals then .ok reg
    else (reg.applySplit t parent.zoneId low.zoneId high.zoneId).map (applied · t)
  | .split, parents, children => .error (.splitCardinality parents.length children.length)
  | .merge, [a, b], [child] =>
    if t.sealHashForSig ∈ reg.appliedSeals then .ok reg
    else (reg.applyMerge t a.zoneId b.zoneId child.zoneId).map (applied · t)
  | .merge, parents, children => .error (.mergeCardinality parents.length children.length)

/-- The registry after a seal, whether it is accepted or not. -/
def step (reg : ZoneRegistry) (t : TransitionSeal) : ZoneRegistry :=
  (reg.applyTransition t).toOption.getD reg

def after (genesis : List ZoneId) (seals : List TransitionSeal) : ZoneRegistry :=
  seals.foldl step (withGenesis genesis)

end Apply

end ZoneRegistry

/-! ### What a seal does -/

/-- The zones that a seal closes, with their new entries. -/
def TransitionSeal.closes (t : TransitionSeal) : List (ZoneId × ZoneEntry) :=
  match t.kind, t.parents, t.children, t.splitKey with
  | .split, [parent], [low, high], some key =>
    [(parent.zoneId, .split t.effectiveEpoch key low.zoneId high.zoneId)]
  | .merge, [a, b], [child], _ =>
    [(a.zoneId, .merged t.effectiveEpoch b.zoneId child.zoneId),
      (b.zoneId, .merged t.effectiveEpoch a.zoneId child.zoneId)]
  | _, _, _, _ => []

def TransitionSeal.opens (t : TransitionSeal) : List ZoneId := t.children.map ZoneSnapshot.zoneId

/-- A seal has the number of parents and children that its kind asks for. -/
def TransitionSeal.WellFormed (t : TransitionSeal) : Prop := t.closes ≠ [] ∧ t.opens.Nodup

/-- The zones that a seal closes are active, those that it opens are unknown. -/
structure Applicable (reg : ZoneRegistry) (t : TransitionSeal) : Prop where
  wellFormed : t.WellFormed
  parents_active : ∀ z e, (z, e) ∈ t.closes → reg.entries.lookup z = some .active
  children_fresh : ∀ z ∈ t.opens, reg.entries.lookup z = none

/-- The registry after a seal that is applied for the first time. -/
structure Effect [SealJson] [Sha3] (reg : ZoneRegistry) (t : TransitionSeal) (reg' : ZoneRegistry) :
    Prop extends Applicable reg t where
  opened : ∀ z ∈ t.opens, reg'.entries.lookup z = some .active
  closed : ∀ z e, (z, e) ∈ t.closes → reg'.entries.lookup z = some e
  other : ∀ z, z ∉ t.opens → (∀ e, (z, e) ∉ t.closes) →
    reg'.entries.lookup z = reg.entries.lookup z
  active : ∀ z, z ∈ reg'.active ↔ z ∈ t.opens ∨ (z ∈ reg.active ∧ ∀ e, (z, e) ∉ t.closes)
  applied : reg'.appliedSeals = insert t.sealHashForSig reg.appliedSeals
  highest : reg'.highestEffectiveEpoch = max reg.highestEffectiveEpoch t.effectiveEpoch

namespace ZoneRegistry

/-- Note new entries of closed zones. -/
def closeAll (entries : Table ZoneId ZoneEntry) (cs : List (ZoneId × ZoneEntry)) :
    Table ZoneId ZoneEntry :=
  cs.foldl (fun entries c => entries.insert c.1 c.2) entries

/-- Note active zones. -/
def openAll (entries : Table ZoneId ZoneEntry) (zs : List ZoneId) : Table ZoneId ZoneEntry :=
  zs.foldl (fun entries z => entries.insert z .active) entries

theorem lookup_openAll (entries : Table ZoneId ZoneEntry) (zs : List ZoneId) (z : ZoneId) :
    (openAll entries zs).lookup z = if z ∈ zs then some .active else entries.lookup z := by
  induction zs generalizing entries with
  | nil => rfl
  | cons y zs ih =>
    refine (ih _).trans ?_
    rw [Table.lookup_insert_eq]
    by_cases hzs : z ∈ zs
    · rw [if_pos hzs, if_pos (List.mem_cons_of_mem y hzs)]
    · by_cases hzy : z = y
      · simp [hzy]
      · simp [hzs, hzy]

theorem lookup_closeAll_of_notMem {cs : List (ZoneId × ZoneEntry)} {z : ZoneId}
    (hz : ∀ e, (z, e) ∉ cs) (entries : Table ZoneId ZoneEntry) :
    (closeAll entries cs).lookup z = entries.lookup z := by
  induction cs generalizing entries with
  | nil => rfl
  | cons c cs ih =>
    have hne : z ≠ c.1 := fun heq => hz c.2 (heq ▸ List.mem_cons_self)
    refine (ih (fun e he => hz e (List.mem_cons_of_mem c he)) _).trans ?_
    rw [Table.lookup_insert_eq, if_neg hne]

theorem lookup_closeAll {cs : List (ZoneId × ZoneEntry)}
    (hcs : ∀ z e e', (z, e) ∈ cs → (z, e') ∈ cs → e = e') {z : ZoneId} {e : ZoneEntry}
    (hz : (z, e) ∈ cs) (entries : Table ZoneId ZoneEntry) :
    (closeAll entries cs).lookup z = some e := by
  induction cs generalizing entries with
  | nil => cases hz
  | cons c cs ih =>
    by_cases hlater : ∃ e', (z, e') ∈ cs
    · obtain ⟨e', he'⟩ := hlater
      have hee' : e = e' := hcs z e e' hz (List.mem_cons_of_mem c he')
      exact ih (fun z e e' h h' => hcs z e e' (List.mem_cons_of_mem c h) (List.mem_cons_of_mem c h'))
        (hee' ▸ he') _
    · have hc : (z, e) = c := (List.mem_cons.mp hz).resolve_right fun hmem => hlater ⟨e, hmem⟩
      refine (lookup_closeAll_of_notMem (fun e' he' => hlater ⟨e', he'⟩) _).trans ?_
      rw [← hc, Table.lookup_insert_eq, if_pos rfl]

/-- The registry after a seal that can be applied. -/
def update [SealJson] [Sha3] (reg : ZoneRegistry) (t : TransitionSeal) : ZoneRegistry :=
  applied { reg with
    entries := openAll (closeAll reg.entries t.closes) t.opens
    active := t.opens.foldl (fun active z => insert z active)
      (t.closes.foldl (fun active c => active.erase c.1) reg.active) } t

end ZoneRegistry

variable {t : TransitionSeal}

theorem closes_split {parent low high : ZoneSnapshot} {key : Bytes32}
    (hkind : t.kind = .split) (hparents : t.parents = [parent]) (hchildren : t.children = [low, high])
    (hkey : t.splitKey = some key) :
    t.closes = [(parent.zoneId, .split t.effectiveEpoch key low.zoneId high.zoneId)] ∧
      t.opens = [low.zoneId, high.zoneId] := by
  unfold TransitionSeal.closes TransitionSeal.opens
  rw [hkind, hparents, hchildren, hkey]
  exact ⟨rfl, rfl⟩

theorem closes_merge {a b child : ZoneSnapshot}
    (hkind : t.kind = .merge) (hparents : t.parents = [a, b]) (hchildren : t.children = [child]) :
    t.closes = [(a.zoneId, .merged t.effectiveEpoch b.zoneId child.zoneId),
      (b.zoneId, .merged t.effectiveEpoch a.zoneId child.zoneId)] ∧ t.opens = [child.zoneId] := by
  unfold TransitionSeal.closes TransitionSeal.opens
  rw [hkind, hparents, hchildren]
  exact ⟨rfl, rfl⟩

/-- A seal that closes a zone is a split or a merge of the right form. -/
theorem shape_of_closes (h : t.closes ≠ []) :
    (∃ parent low high key, t.kind = .split ∧ t.parents = [parent] ∧ t.children = [low, high] ∧
      t.splitKey = some key) ∨
    ∃ a b child, t.kind = .merge ∧ t.parents = [a, b] ∧ t.children = [child] := by
  unfold TransitionSeal.closes at h
  split at h
  next parent low high key hkind hparents hchildren hkey =>
    exact .inl ⟨parent, low, high, key, hkind, hparents, hchildren, hkey⟩
  next _ a b child hkind hparents hchildren => exact .inr ⟨a, b, child, hkind, hparents, hchildren⟩
  · exact absurd rfl h

theorem closes_functional {z : ZoneId} {e e' : ZoneEntry}
    (h : (z, e) ∈ t.closes) (h' : (z, e') ∈ t.closes) : e = e' := by
  obtain ⟨parent, low, high, key, hkind, hparents, hchildren, hkey⟩ |
    ⟨a, b, child, hkind, hparents, hchildren⟩ := shape_of_closes (List.ne_nil_of_mem h)
  · rw [(closes_split hkind hparents hchildren hkey).1, List.mem_singleton, Prod.mk.injEq] at h h'
    rw [h.2, h'.2]
  · -- Where a zone is merged with itself both entries name it as the peer.
    rw [(closes_merge hkind hparents hchildren).1] at h h'
    simp only [List.mem_cons, Prod.mk.injEq, List.not_mem_nil, or_false] at h h'
    rcases h with ⟨hz, rfl⟩ | ⟨hz, rfl⟩ <;> rcases h' with ⟨hz', rfl⟩ | ⟨hz', rfl⟩
    · rfl
    · rw [← hz, ← hz']
    · rw [← hz, ← hz']
    · rfl

theorem Applicable.effect [SealJson] [Sha3] {reg : ZoneRegistry}
    (h : Applicable reg t) : Effect reg t (reg.update t) where
  toApplicable := h
  opened z hz := (ZoneRegistry.lookup_openAll _ _ z).trans (if_pos hz)
  closed z e hz := by
    have hnotOpened : z ∉ t.opens := fun hmem =>
      nomatch (h.parents_active z e hz).symm.trans (h.children_fresh z hmem)
    refine (ZoneRegistry.lookup_openAll _ _ z).trans ?_
    rw [if_neg hnotOpened]
    exact ZoneRegistry.lookup_closeAll (fun _ _ _ => closes_functional) hz reg.entries
  other z hz hclosed := by
    refine (ZoneRegistry.lookup_openAll _ _ z).trans ?_
    rw [if_neg hz]
    exact ZoneRegistry.lookup_closeAll_of_notMem hclosed reg.entries
  active z := by
    have hopen : ∀ (zs : List ZoneId) (s : Finset ZoneId),
        z ∈ zs.foldl (fun active z => insert z active) s ↔ z ∈ zs ∨ z ∈ s := by
      intro zs
      induction zs with
      | nil => simp
      | cons y zs ih =>
        intro s
        rw [List.foldl_cons, ih, Finset.mem_insert, List.mem_cons]
        tauto
    have hclose : ∀ (cs : List (ZoneId × ZoneEntry)) (s : Finset ZoneId),
        z ∈ cs.foldl (fun active c => active.erase c.1) s ↔ z ∈ s ∧ ∀ e, (z, e) ∉ cs := by
      intro cs
      induction cs with
      | nil => simp
      | cons c cs ih =>
        intro s
        rw [List.foldl_cons, ih, Finset.mem_erase]
        obtain ⟨c₁, c₂⟩ := c
        simp only [List.mem_cons, Prod.mk.injEq, not_or, forall_and, not_and]
        constructor
        · rintro ⟨⟨hne, hs⟩, hcs⟩
          exact ⟨hs, fun e heq => absurd heq hne, hcs⟩
        · rintro ⟨hs, hne, hcs⟩
          exact ⟨⟨fun heq => hne c₂ heq rfl, hs⟩, hcs⟩
    exact (hopen _ _).trans (or_congr_right (hclose _ _))
  applied := rfl
  highest := rfl

/-- A closed zone points to one that is opened with it. -/
theorem next_of_closes {z : ZoneId} {e : ZoneEntry} (h : (z, e) ∈ t.closes)
    (routingKey : Bytes32) : ∃ child ∈ t.opens, ZoneRegistry.next routingKey e = some child := by
  obtain ⟨parent, low, high, key, hkind, hparents, hchildren, hkey⟩ |
    ⟨a, b, child, hkind, hparents, hchildren⟩ := shape_of_closes (List.ne_nil_of_mem h)
  · obtain ⟨hcloses, hopens⟩ := closes_split hkind hparents hchildren hkey
    rw [hcloses, List.mem_singleton, Prod.mk.injEq] at h
    rw [hopens, h.2]
    refine ⟨_, ?_, rfl⟩
    split <;> simp
  · obtain ⟨hcloses, hopens⟩ := closes_merge hkind hparents hchildren
    rw [hcloses] at h
    rw [hopens]
    refine ⟨child.zoneId, List.mem_singleton_self _, ?_⟩
    simp only [List.mem_cons, Prod.mk.injEq, List.not_mem_nil, or_false] at h
    rcases h with ⟨-, rfl⟩ | ⟨-, rfl⟩ <;> rfl

namespace ZoneRegistry

variable {t : TransitionSeal} {k n : ℕ} {z w : ZoneId}

theorem applySplit_ok {reg reg' : ZoneRegistry} {parent low high : ZoneId}
    (h : reg.applySplit t parent low high = .ok reg') :
    ∃ key, t.splitKey = some key ∧ reg.entries.lookup parent = some .active ∧
      reg.entries.lookup low = none ∧ reg.entries.lookup high = none ∧ low ≠ high ∧
      reg' = { reg with
        entries := ((reg.entries.insert parent (.split t.effectiveEpoch key low high)).insert low
          .active).insert high .active
        active := insert high (insert low (reg.active.erase parent)) } := by
  unfold applySplit at h
  split at h
  · cases h
  next key hkey =>
    split at h
    · cases h
    next hparent =>
      split at h
      · cases h
      next hlow =>
        split at h
        · cases h
        next hhigh =>
          split at h
          · cases h
          next hne =>
            cases h
            exact ⟨key, hkey, hparent, by simpa using hlow, by simpa using hhigh, hne, rfl⟩
    · cases h

theorem checkMergeParent_ok_iff {reg : ZoneRegistry} {p : ZoneId} :
    reg.checkMergeParent p = .ok () ↔ reg.entries.lookup p = some .active := by
  unfold checkMergeParent
  split
  next h => exact iff_of_true rfl h
  next hne h => exact iff_of_false (fun hc => nomatch hc) fun hc => hne (Option.some.inj (h.symm.trans hc))
  next h => exact iff_of_false (fun hc => nomatch hc) fun hc => nomatch h.symm.trans hc

theorem applyMerge_ok {reg reg' : ZoneRegistry} {a b child : ZoneId}
    (h : reg.applyMerge t a b child = .ok reg') :
    reg.entries.lookup a = some .active ∧ reg.entries.lookup b = some .active ∧
      reg.entries.lookup child = none ∧
      reg' = { reg with
        entries := ((reg.entries.insert a (.merged t.effectiveEpoch b child)).insert b
          (.merged t.effectiveEpoch a child)).insert child .active
        active := insert child ((reg.active.erase a).erase b) } := by
  unfold applyMerge at h
  cases ha : reg.checkMergeParent a with
  | error e =>
    rw [ha] at h
    cases h
  | ok _ =>
    cases hb : reg.checkMergeParent b with
    | error e =>
      rw [ha, hb] at h
      cases h
    | ok _ =>
      rw [ha, hb] at h
      simp only [bind, Except.bind] at h
      split at h
      · cases h
      next hchild =>
        cases h
        exact ⟨checkMergeParent_ok_iff.mp ha, checkMergeParent_ok_iff.mp hb, by simpa using hchild,
          rfl⟩

section Apply

variable [SealJson] [Sha3]

variable {t : TransitionSeal}

/-- A seal that is accepted for the first time could be applied. -/
theorem applicable_of_ok {reg reg' : ZoneRegistry}
    (h : reg.applyTransition t = .ok reg') (hnew : t.sealHashForSig ∉ reg.appliedSeals) :
    Applicable reg t ∧ reg' = reg.update t := by
  unfold applyTransition at h
  split at h
  next parent low high hkind hparents hchildren =>
    rw [if_neg hnew] at h
    cases hsplit : reg.applySplit t parent.zoneId low.zoneId high.zoneId with
    | error e =>
      rw [hsplit] at h
      cases h
    | ok reg₁ =>
      rw [hsplit] at h
      obtain ⟨key, hkey, hparent, hlow, hhigh, hne, rfl⟩ := applySplit_ok hsplit
      obtain ⟨hcloses, hopens⟩ := closes_split hkind hparents hchildren hkey
      cases h
      refine ⟨⟨⟨by simp [hcloses], by simp [hopens, hne]⟩, ?_, ?_⟩, ?_⟩
      · intro z e hz
        rw [hcloses, List.mem_singleton, Prod.mk.injEq] at hz
        rw [hz.1]
        exact hparent
      · intro z hz
        rw [hopens] at hz
        rcases List.mem_pair.mp hz with rfl | rfl
        · exact hlow
        · exact hhigh
      · unfold update
        rw [hcloses, hopens]
        rfl
  · cases h
  next a b child hkind hparents hchildren =>
    rw [if_neg hnew] at h
    cases hmerge : reg.applyMerge t a.zoneId b.zoneId child.zoneId with
    | error e =>
      rw [hmerge] at h
      cases h
    | ok reg₁ =>
      rw [hmerge] at h
      obtain ⟨ha, hb, hchild, rfl⟩ := applyMerge_ok hmerge
      obtain ⟨hcloses, hopens⟩ := closes_merge hkind hparents hchildren
      cases h
      refine ⟨⟨⟨by simp [hcloses], by simp [hopens]⟩, ?_, ?_⟩, ?_⟩
      · intro z e hz
        rw [hcloses] at hz
        rcases List.mem_pair.mp hz with heq | heq
        · rw [(Prod.mk.inj heq).1]
          exact ha
        · rw [(Prod.mk.inj heq).1]
          exact hb
      · intro z hz
        rw [hopens, List.mem_singleton] at hz
        rw [hz]
        exact hchild
      · unfold update
        rw [hcloses, hopens]
        rfl
  · cases h

theorem applyTransition_of_applicable {reg : ZoneRegistry}
    (h : Applicable reg t) (hnew : t.sealHashForSig ∉ reg.appliedSeals) :
    reg.applyTransition t = .ok (reg.update t) := by
  unfold applyTransition update
  obtain ⟨parent, low, high, key, hkind, hparents, hchildren, hkey⟩ |
    ⟨a, b, child, hkind, hparents, hchildren⟩ := shape_of_closes h.wellFormed.1
  · obtain ⟨hcloses, hopens⟩ := closes_split hkind hparents hchildren hkey
    have hparent := h.parents_active parent.zoneId _ (hcloses ▸ List.mem_singleton_self _)
    have hlow := h.children_fresh low.zoneId (by simp [hopens])
    have hhigh := h.children_fresh high.zoneId (by simp [hopens])
    have hne : low.zoneId ≠ high.zoneId := by
      have hnodup := h.wellFormed.2
      rw [hopens] at hnodup
      simpa using hnodup
    rw [hkind, hparents, hchildren, hcloses, hopens]
    simp only [hnew, applySplit, hkey, hparent, hlow, hhigh, hne, if_false, Option.isSome_none,
      Bool.false_eq_true]
    rfl
  · obtain ⟨hcloses, hopens⟩ := closes_merge hkind hparents hchildren
    have ha := checkMergeParent_ok_iff.mpr (h.parents_active a.zoneId _
      (hcloses ▸ List.mem_cons_self))
    have hb := checkMergeParent_ok_iff.mpr (h.parents_active b.zoneId _
      (hcloses ▸ List.mem_cons_of_mem _ (List.mem_singleton_self _)))
    have hchild := h.children_fresh child.zoneId (by simp [hopens])
    rw [hkind, hparents, hchildren, hcloses, hopens]
    simp only [hnew, applyMerge, ha, hb, hchild, if_false, Option.isSome_none, Bool.false_eq_true]
    rfl

theorem eq_of_ok_of_applied {reg reg' : ZoneRegistry}
    (h : reg.applyTransition t = .ok reg') (hold : t.sealHashForSig ∈ reg.appliedSeals) :
    reg' = reg := by
  unfold applyTransition at h
  split at h
  · rw [if_pos hold] at h
    cases h
    rfl
  · cases h
  · rw [if_pos hold] at h
    cases h
    rfl
  · cases h

/-- What a call can do: nothing, or the effect of a seal that was not applied before. -/
theorem step_cases (reg : ZoneRegistry) (t : TransitionSeal) :
    reg.step t = reg ∨ (t.sealHashForSig ∉ reg.appliedSeals ∧ Effect reg t (reg.step t)) := by
  unfold step
  cases h : reg.applyTransition t with
  | error e => exact .inl rfl
  | ok reg' =>
    by_cases hold : t.sealHashForSig ∈ reg.appliedSeals
    · exact .inl (eq_of_ok_of_applied h hold)
    · obtain ⟨happlicable, rfl⟩ := applicable_of_ok h hold
      exact .inr ⟨hold, happlicable.effect⟩

end Apply

/-! ### Walks -/

/-- A walk along the pointers, of a number of steps. -/
inductive Hops (reg : ZoneRegistry) (routingKey : Bytes32) : ℕ → ZoneId → ZoneId → Prop
  | refl (z : ZoneId) : Hops reg routingKey 0 z z
  | hop {n : ℕ} {z z' w : ZoneId} {e : ZoneEntry} (hlookup : reg.entries.lookup z = some e)
      (hnext : next routingKey e = some z') (hrest : Hops reg routingKey n z' w) :
      Hops reg routingKey (n + 1) z w

variable {reg reg' : ZoneRegistry} {routingKey : Bytes32}

theorem walk_hop {z' : ZoneId} {e : ZoneEntry} (hlookup : reg.entries.lookup z = some e)
    (hnext : next routingKey e = some z') :
    reg.walk routingKey (k + 1) z = reg.walk routingKey k z' := by
  rw [walk, hlookup, Option.bind_some, hnext]

/-- A walk that has an end within the steps that are left arrives there. -/
theorem walk_of_hops {leaf : ZoneId} (h : Hops reg routingKey n z leaf)
    (hleaf : reg.entries.lookup leaf = some .active) (hn : n ≤ k) :
    reg.walk routingKey k z = leaf := by
  induction h generalizing k with
  | refl z =>
    cases k with
    | zero => rfl
    | succ k =>
      unfold walk
      rw [hleaf]
      rfl
  | hop hlookup hnext _ ih =>
    cases k with
    | zero => exact absurd hn (Nat.not_succ_le_zero _)
    | succ k =>
      rw [walk_hop hlookup hnext]
      exact ih hleaf (Nat.le_of_succ_le_succ hn)

/-- A walk that is cut off is not at an active zone. -/
theorem walk_not_active (h : Hops reg routingKey n z w) (hk : k < n) :
    reg.entries.lookup (reg.walk routingKey k z) ≠ some .active := by
  induction h generalizing k with
  | refl z => exact absurd hk (Nat.not_lt_zero k)
  | hop hlookup hnext _ ih =>
    cases k with
    | zero =>
      intro hactive
      cases hlookup.symm.trans hactive
      cases hnext
    | succ k =>
      rw [walk_hop hlookup hnext]
      exact ih (Nat.lt_of_succ_lt_succ hk)

/-- The active set is right, and every walk ends at an active zone. -/
structure Routed (reg : ZoneRegistry) : Prop where
  active_iff : ∀ z, z ∈ reg.active ↔ reg.entries.lookup z = some .active
  ends : ∀ routingKey z, reg.Known z →
    ∃ n leaf, Hops reg routingKey n z leaf ∧ reg.entries.lookup leaf = some .active

theorem Hops.snoc {w' : ZoneId} {e : ZoneEntry} (h : Hops reg routingKey n z w)
    (hlookup : reg.entries.lookup w = some e) (hnext : next routingKey e = some w') :
    Hops reg routingKey (n + 1) z w' := by
  induction h with
  | refl z => exact .hop hlookup hnext (.refl w')
  | hop hlookup' hnext' _ ih => exact .hop hlookup' hnext' (ih hlookup)

/-- The zones of a walk are closed, so that no seal changes them. -/
theorem Hops.effect [SealJson] [Sha3] (heffect : Effect reg t reg')
    (h : Hops reg routingKey n z w) : Hops reg' routingKey n z w := by
  induction h with
  | refl z => exact .refl z
  | @hop n z z' w e hlookup hnext _ ih =>
    have hopened : z ∉ t.opens := fun hmem =>
      nomatch hlookup.symm.trans (heffect.children_fresh z hmem)
    have hopen : ∀ e', (z, e') ∉ t.closes := by
      intro e' he'
      cases hlookup.symm.trans (heffect.parents_active z e' he')
      cases hnext
    exact .hop ((heffect.other z hopened hopen).trans hlookup) hnext ih

/-- A walk goes on where its end is closed. -/
theorem Hops.extend [SealJson] [Sha3] (heffect : Effect reg t reg')
    {leaf : ZoneId} (h : Hops reg routingKey n z leaf)
    (hleaf : reg.entries.lookup leaf = some .active) :
    ∃ m leaf', Hops reg' routingKey m z leaf' ∧ reg'.entries.lookup leaf' = some .active := by
  have hwalk := h.effect heffect
  by_cases hclosed : ∃ e, (leaf, e) ∈ t.closes
  · obtain ⟨e, he⟩ := hclosed
    obtain ⟨child, hchild, hnext⟩ := next_of_closes he routingKey
    exact ⟨n + 1, child, hwalk.snoc (heffect.closed leaf e he) hnext, heffect.opened child hchild⟩
  · have hopened : leaf ∉ t.opens := fun hmem =>
      nomatch hleaf.symm.trans (heffect.children_fresh leaf hmem)
    refine ⟨n, leaf, hwalk, ?_⟩
    rw [heffect.other leaf hopened fun e he => hclosed ⟨e, he⟩]
    exact hleaf

theorem Routed.effect [SealJson] [Sha3] (h : Routed reg)
    (heffect : Effect reg t reg') : Routed reg' where
  active_iff z := by
    rw [heffect.active]
    by_cases hopened : z ∈ t.opens
    · exact iff_of_true (.inl hopened) (heffect.opened z hopened)
    · rw [or_iff_right hopened]
      by_cases hclosed : ∃ e, (z, e) ∈ t.closes
      · obtain ⟨e, he⟩ := hclosed
        obtain ⟨child, -, hnext⟩ := next_of_closes he Bytes32.zero
        refine iff_of_false (fun hz => hz.2 e he) fun hactive => ?_
        cases (heffect.closed z e he).symm.trans hactive
        cases hnext
      · have hopen : ∀ e, (z, e) ∉ t.closes := fun e he => hclosed ⟨e, he⟩
        rw [heffect.other z hopened hopen, and_iff_left hopen]
        exact h.active_iff z
  ends routingKey z hknown := by
    by_cases hopened : z ∈ t.opens
    · exact ⟨0, z, .refl z, heffect.opened z hopened⟩
    · have hbefore : reg.Known z := by
        by_cases hclosed : ∃ e, (z, e) ∈ t.closes
        · obtain ⟨e, he⟩ := hclosed
          unfold Known
          rw [heffect.parents_active z e he]
          rfl
        · unfold Known at hknown ⊢
          rwa [heffect.other z hopened fun e he => hclosed ⟨e, he⟩] at hknown
      obtain ⟨n, leaf, hops, hactive⟩ := h.ends routingKey z hbefore
      exact hops.extend heffect hactive

/-- The zones of a genesis set are active, and no others are known. -/
theorem withGenesis_spec (genesis : List ZoneId) :
    (∀ z, (ZoneRegistry.withGenesis genesis).entries.lookup z =
      if z ∈ genesis then some .active else none) ∧
    (∀ z, z ∈ (ZoneRegistry.withGenesis genesis).active ↔ z ∈ genesis) ∧
    (ZoneRegistry.withGenesis genesis).appliedSeals = ∅ ∧
    (ZoneRegistry.withGenesis genesis).highestEffectiveEpoch = 0 := by
  unfold ZoneRegistry.withGenesis
  induction genesis using List.reverseRecOn with
  | nil => exact ⟨fun z => rfl, fun z => by simp [new], rfl, rfl⟩
  | append_singleton genesis y ih =>
    obtain ⟨hlookup, hactive, happlied, hhighest⟩ := ih
    rw [List.foldl_concat]
    refine ⟨fun z => ?_, fun z => ?_, happlied, hhighest⟩
    · rw [Table.lookup_insert_eq, hlookup]
      by_cases hzy : z = y <;> simp [hzy]
    · rw [Finset.mem_insert, hactive, List.mem_append, List.mem_singleton, or_comm]

theorem Routed.withGenesis (genesis : List ZoneId) :
    Routed (ZoneRegistry.withGenesis genesis) where
  active_iff z := by
    rw [(withGenesis_spec genesis).2.1, (withGenesis_spec genesis).1]
    simp
  ends routingKey z hknown := by
    unfold Known at hknown
    rw [(withGenesis_spec genesis).1] at hknown
    have hmem : z ∈ genesis := by
      by_contra hnot
      rw [if_neg hnot] at hknown
      cases hknown
    exact ⟨0, z, .refl z, ((withGenesis_spec genesis).1 z).trans (if_pos hmem)⟩

/-- Every history leads to a registry whose walks end. -/
theorem Routed.run [SealJson] [Sha3] (genesis : List ZoneId) (seals : List TransitionSeal) :
    Routed (after genesis seals) := by
  refine List.foldlRecOn seals step (Routed.withGenesis genesis) fun reg hreg t _ => ?_
  rcases reg.step_cases t with heq | ⟨-, heffect⟩
  · rw [heq]
    exact hreg
  · exact hreg.effect heffect

/-- **Routing.**  After every history of seals, accepted or not, the active set is the set of the
active zones and every known zone resolves to an active zone under every key, exactly if no
walk along the pointers has more than 64 steps. -/
theorem resolve_active_iff [SealJson] [Sha3] (genesis : List ZoneId) (seals : List TransitionSeal) :
    ((∀ z, z ∈ (after genesis seals).active ↔ (after genesis seals).isActive z) ∧
      ∀ z routingKey, (after genesis seals).Known z →
        (after genesis seals).isActive ((after genesis seals).resolve z routingKey)) ↔
      ∀ routingKey n z w, Hops (after genesis seals) routingKey n z w → n ≤ maxResolveDepth := by
  have hrouted := Routed.run genesis seals
  generalize after genesis seals = reg at hrouted
  unfold isActive
  simp only [decide_eq_true_eq]
  constructor
  · rintro ⟨-, hresolve⟩ routingKey n z w hops
    by_contra hlong
    have hknown : reg.Known z := by
      cases hops with
      | refl => exact absurd (Nat.zero_le _) hlong
      | hop hlookup _ _ =>
        unfold Known
        rw [hlookup]
        rfl
    exact walk_not_active hops (Nat.lt_of_not_le hlong) (hresolve z routingKey hknown)
  · intro hshort
    refine ⟨hrouted.active_iff, fun z routingKey hknown => ?_⟩
    obtain ⟨n, leaf, hops, hleaf⟩ := hrouted.ends routingKey z hknown
    have hwalk := walk_of_hops hops hleaf (hshort routingKey n z leaf hops)
    unfold resolve
    rw [hwalk]
    exact hleaf

section LongHistory

attribute [local instance] plainJson Smt.guardedSha3

def zoneNamed (first : UInt8) (n : ℕ) : ZoneId := ⟨first :: Framing.decimal n⟩

def snapshotOf (z : ZoneId) : ZoneSnapshot := ⟨z, Bytes32.zero, Str.empty, 0, Bytes32.zero⟩

/-- The split of a zone, with a boundary that sends every key to the second child. -/
def splitOf (parent low high : ZoneId) (epoch : ℕ) : TransitionSeal where
  kind := .split
  effectiveEpoch := epoch
  proposedAtEpoch := epoch - transitionDisputeWindowEpochs
  parents := [snapshotOf parent]
  children := [snapshotOf low, snapshotOf high]
  splitKey := some Bytes32.zero
  proposerSigs := []
  sigDomain := none

/-- The split of the second child of the split before. -/
def longSplit (n : ℕ) : TransitionSeal :=
  splitOf (zoneNamed 0x7a n) (zoneNamed 0x79 (n + 1)) (zoneNamed 0x7a (n + 1)) (n + 3)

/-- A zone is split, then its second child, and so on. -/
def longRegistry (n : ℕ) : ZoneRegistry :=
  after [zoneNamed 0x7a 0] ((List.range n).map longSplit)

theorem longRegistry_succ (n : ℕ) :
    longRegistry (n + 1) = (longRegistry n).step (longSplit n) := by
  unfold longRegistry after
  rw [List.range_succ, List.map_append, List.map_singleton, List.foldl_concat]

variable {n : ℕ}

theorem zoneNamed_inj {a b : UInt8} {m : ℕ} (h : zoneNamed a m = zoneNamed b n) :
    a = b ∧ m = n := by
  obtain ⟨hab, hname⟩ := List.cons.inj (congrArg ZoneId.path h)
  exact ⟨hab, Framing.decimal_injective hname⟩

/-- The digests of the splits differ, also from that of the empty string. -/
theorem nodup_digests : (Keccak.number [] :: (List.range 65).map fun n =>
    Keccak.number (longSplit n).canonicalEncodeForSig).Nodup :=
  Keccak.nodup_of_apart (k := 256) (by decide +kernel)

theorem longSplit_hash_inj {m : ℕ} (hm : m < 65) (hn : n < 65)
    (h : (longSplit m).sealHashForSig = (longSplit n).sealHashForSig) : m = n := by
  obtain ⟨hempty, hnodup⟩ := List.nodup_cons.mp nodup_digests
  have hne : ∀ i < 65, Keccak.number (longSplit i).canonicalEncodeForSig ≠ Keccak.number [] := by
    intro i hi heq
    refine hempty ?_
    rw [← heq]
    exact List.mem_map_of_mem (List.mem_range.mpr hi)
  exact List.inj_on_of_nodup_map hnodup (List.mem_range.mpr hm) (List.mem_range.mpr hn)
    (Smt.number_eq_of_guardedSha3_eq (hne m hm) (hne n hn) h)

/-- The walk from the first zone has a step for each split. -/
theorem longRegistry_hops (hn : n ≤ 65) :
    Hops (longRegistry n) Bytes32.zero n (zoneNamed 0x7a 0) (zoneNamed 0x7a n) ∧
      (longRegistry n).entries.lookup (zoneNamed 0x7a n) = some .active ∧
      (∀ i > n, ∀ first, (longRegistry n).entries.lookup (zoneNamed first i) = none) ∧
      ∀ i ≥ n, i < 65 → (longSplit i).sealHashForSig ∉ (longRegistry n).appliedSeals := by
  induction n with
  | zero =>
    obtain ⟨hlookup, -, happlied, -⟩ := withGenesis_spec [zoneNamed 0x7a 0]
    refine ⟨.refl _, (hlookup _).trans (if_pos (List.mem_singleton_self _)), ?_, ?_⟩
    · intro i hi first
      refine (hlookup _).trans (if_neg fun hmem => ?_)
      have hzero := (zoneNamed_inj (List.mem_singleton.mp hmem)).2
      omega
    · intro i _ _
      unfold longRegistry
      exact fun hmem => Finset.notMem_empty _ (happlied ▸ hmem)
  | succ n ih =>
    obtain ⟨hhops, hactive, hfresh, hnew⟩ := ih (Nat.le_of_succ_le hn)
    have happlicable : Applicable (longRegistry n) (longSplit n) := by
      refine ⟨⟨List.cons_ne_nil _ _, ?_⟩, ?_, ?_⟩
      · refine List.nodup_cons.mpr ⟨fun hmem => ?_, List.nodup_singleton _⟩
        exact absurd (zoneNamed_inj (List.mem_singleton.mp hmem)).1 (by decide)
      · intro z e hz
        have hz' := (Prod.mk.inj (List.mem_singleton.mp hz)).1
        rw [hz']
        exact hactive
      · intro z hz
        rcases List.mem_pair.mp hz with rfl | rfl
        · exact hfresh _ (Nat.lt_succ_self n) _
        · exact hfresh _ (Nat.lt_succ_self n) _
    have hstep : longRegistry (n + 1) = (longRegistry n).update (longSplit n) := by
      rw [longRegistry_succ]
      unfold step
      rw [applyTransition_of_applicable happlicable (hnew n le_rfl hn)]
      rfl
    have heffect := happlicable.effect
    rw [← hstep] at heffect
    refine ⟨?_, ?_, ?_, ?_⟩
    · refine (hhops.effect heffect).snoc (heffect.closed _ _ (List.mem_singleton_self _)) ?_
      rfl
    · exact heffect.opened _ (List.mem_pair.mpr (.inr rfl))
    · intro i hi first
      rw [heffect.other, hfresh i (Nat.lt_of_succ_lt hi) first]
      · intro hmem
        rcases List.mem_pair.mp hmem with heq | heq
        · have hi' := (zoneNamed_inj heq).2
          omega
        · have hi' := (zoneNamed_inj heq).2
          omega
      · intro e he
        have hi' := (zoneNamed_inj (Prod.mk.inj (List.mem_singleton.mp he)).1).2
        omega
    · intro i hi hlt
      rw [heffect.applied, Finset.mem_insert, not_or]
      refine ⟨fun heq => ?_, hnew i (Nat.le_of_succ_le hi) hlt⟩
      have hin := longSplit_hash_inj hlt hn heq
      omega

/-- After 65 splits the first zone resolves to one that is closed. -/
theorem longRegistry_stranded :
    (longRegistry 65).Known (zoneNamed 0x7a 0) ∧
      ¬ (longRegistry 65).isActive ((longRegistry 65).resolve (zoneNamed 0x7a 0) Bytes32.zero) := by
  obtain ⟨hhops, -⟩ := longRegistry_hops (n := 65) (by decide)
  refine ⟨?_, ?_⟩
  · cases hhops with
    | hop hlookup _ _ =>
      unfold Known
      rw [hlookup]
      rfl
  · unfold isActive
    rw [decide_eq_true_eq]
    exact walk_not_active hhops (by decide)

end LongHistory

end ZoneRegistry

end ElaraMesh.Zones
