import ElaraMesh.Itc.Event
import Mathlib.Algebra.BigOperators.Ring.Finset
import Mathlib.Algebra.Order.BigOperators.Group.List
import Mathlib.Tactic.Ring

/-!
# Stamps and populations of stamps

A stamp pairs an identity with an event.  A system of clocks starts from the
seed stamp and changes by forking a stamp, by recording an event on one, and by
joining two; the operations are partial only in that they name the stamps they
act on.

What the identities promise is that the live stamps divide the unit interval
among themselves.  Joining and recording keep that; forking keeps it unless it
splits a node both of whose halves hold identity, and then it always breaks it.

## Main results

* `throughout_partition_iff` — **a run keeps the identities a partition exactly
  when it is clean.**
-/

namespace ElaraMesh
namespace Itc

open U64 (satAdd)

/-- An interval tree clock stamp. -/
structure Stamp where
  id : Id
  event : Event
  deriving DecidableEq, Repr, Inhabited

/-- Increment the event tree where the identity tree has ownership. -/
def fill : Id → Event → Event
  | .leaf false, e => e
  | .leaf true, .leaf n => .leaf (satAdd n 1)
  | .leaf true, .node n l r => .leaf (satAdd (satAdd n (max l.maxVal r.maxVal)) 1)
  | .node lid rid, .leaf n =>
    -- expand the leaf to a node, then fill the owned subtree
    (Event.node n (fill lid (.leaf 0)) (fill rid (.leaf 0))).normalize
  | .node lid rid, .node n le re =>
    if lid.isZero then (Event.node n le (fill rid re)).normalize
    else if rid.isZero then (Event.node n (fill lid le) re).normalize
    else (Event.node n (fill lid le) (fill rid re)).normalize

namespace Stamp

/-- The initial clock of the first node. -/
def seed : Stamp := ⟨Id.seed, Event.zero⟩

/-- Split a stamp: two identities, one history. -/
def fork (s : Stamp) : Stamp × Stamp :=
  (⟨s.id.fork.1, s.event⟩, ⟨s.id.fork.2, s.event⟩)

def join (s t : Stamp) : Stamp := ⟨s.id.join t.id, s.event.join t.event⟩

/-- Record an event: increment the stamp where it has identity. -/
def recordEvent (s : Stamp) : Stamp := ⟨s.id, (fill s.id s.event).normalize⟩

def leq (s t : Stamp) : Bool := s.event.leq t.event

end Stamp

/-! ### Populations -/

/-- An operation on a population, naming the stamps it acts on by position. -/
inductive Op where
  /-- Replace a stamp by its two halves. -/
  | fork (i : ℕ) : Op
  | event (i : ℕ) : Op
  /-- Replace two different stamps by their join. -/
  | join (i j : ℕ) : Op
  deriving DecidableEq, Repr, Inhabited

/-- One operation on a population; `none` when it names no stamp. -/
def step (ps : List Stamp) : Op → Option (List Stamp)
  | .fork i => ps[i]?.map fun s => ps.set i s.fork.1 ++ [s.fork.2]
  | .event i => ps[i]?.map fun s => ps.set i s.recordEvent
  | .join i j =>
    if i = j then none
    else
      match ps[i]?, ps[j]? with
      | some s, some t => some ((ps.set i (s.join t)).eraseIdx j)
      | _, _ => none

def run (ps : List Stamp) (ops : List Op) : Option (List Stamp) := ops.foldlM step ps

/-- The stamp is live after some run from the seed. -/
def Reachable (s : Stamp) : Prop :=
  ∃ ops ps, run [Stamp.seed] ops = some ps ∧ s ∈ ps

/-- `P` holds of every population the run passes through. -/
def Throughout (P : List Stamp → Prop) : List Stamp → List Op → Prop
  | ps, [] => P ps
  | ps, op :: ops => P ps ∧ ∀ ps', step ps op = some ps' → Throughout P ps' ops

/-- The operation does not fork a node both of whose halves hold identity. -/
def Clean (ps : List Stamp) : Op → Prop
  | .fork i => ∀ s, ps[i]? = some s → s.id.splitsBoth = false
  | _ => True

def CleanRun : List Stamp → List Op → Prop
  | _, [] => True
  | ps, op :: ops => Clean ps op ∧ ∀ ps', step ps op = some ps' → CleanRun ps' ops

variable {ps ps' qs : List Stamp} {op : Op}

/-- **What one operation does to a population**, up to the order of the stamps. -/
theorem step_cases (h : step ps op = some ps') :
    (∃ i s rest, op = .fork i ∧ ps[i]? = some s ∧ ps.Perm (s :: rest) ∧
      ps'.Perm (s.fork.1 :: s.fork.2 :: rest)) ∨
    (∃ i s rest, op = .event i ∧ ps.Perm (s :: rest) ∧ ps'.Perm (s.recordEvent :: rest)) ∨
    (∃ i j s t rest, op = .join i j ∧ ps.Perm (s :: t :: rest) ∧
      ps'.Perm (s.join t :: rest)) := by
  cases op with
  | fork i =>
    left
    simp only [step, Option.map_eq_some_iff] at h
    obtain ⟨s, hs, rfl⟩ := h
    obtain ⟨hi, hget⟩ := List.getElem?_eq_some_iff.mp hs
    refine ⟨i, s, ps.eraseIdx i, rfl, hs, ?_, ?_⟩
    · exact hget ▸ (List.getElem_cons_eraseIdx_perm hi).symm
    · refine ((List.set_perm_cons_eraseIdx hi _).append_right _).trans ?_
      refine List.Perm.cons _ ?_
      exact List.perm_append_singleton _ _
  | event i =>
    right; left
    simp only [step, Option.map_eq_some_iff] at h
    obtain ⟨s, hs, rfl⟩ := h
    obtain ⟨hi, hget⟩ := List.getElem?_eq_some_iff.mp hs
    exact ⟨i, s, ps.eraseIdx i, rfl, hget ▸ (List.getElem_cons_eraseIdx_perm hi).symm,
      List.set_perm_cons_eraseIdx hi _⟩
  | join i j =>
    right; right
    simp only [step] at h
    split at h
    · cases h
    next hij =>
    split at h
    · next s t hs ht =>
      cases h
      obtain ⟨hi, hgi⟩ := List.getElem?_eq_some_iff.mp hs
      obtain ⟨hj, hgj⟩ := List.getElem?_eq_some_iff.mp ht
      -- `t` is taken out first: what is left still holds `s`
      have hjs : j < (ps.set i (s.join t)).length := by simpa using hj
      have hout : (t :: (ps.set i (s.join t)).eraseIdx j).Perm (s.join t :: ps.eraseIdx i) := by
        have hget : (ps.set i (s.join t))[j] = t := by
          rw [List.getElem_set_ne hij, hgj]
        have hp := List.getElem_cons_eraseIdx_perm hjs
        rw [hget] at hp
        exact hp.trans (List.set_perm_cons_eraseIdx hi _)
      have hps : ps.Perm (s :: ps.eraseIdx i) :=
        hgi ▸ (List.getElem_cons_eraseIdx_perm hi).symm
      have ht' : t ∈ ps.eraseIdx i := by
        rw [List.mem_eraseIdx_iff_getElem?]
        exact ⟨j, Ne.symm hij, ht⟩
      have hrest := List.perm_cons_erase ht'
      refine ⟨i, j, s, t, (ps.eraseIdx i).erase t, rfl, hps.trans (hrest.cons s), ?_⟩
      refine (List.perm_cons t).mp (hout.trans ?_)
      exact (hrest.cons _).trans (List.Perm.swap _ _ _)
    · cases h

/-! ### Partitions of the interval -/

/-- No point of the interval is owned by both stamps. -/
def Apart (s t : Stamp) : Prop := ∀ x, ¬ (s.id.owns x = true ∧ t.id.owns x = true)

/-- The identities of the population are pairwise disjoint and their union is
the whole interval. -/
def Partition (ps : List Stamp) : Prop :=
  ps.Pairwise Apart ∧ ∀ x, ∃ s ∈ ps, s.id.owns x = true

/-- How many stamps of the population own a point. -/
def owners (ps : List Stamp) (x : Point) : ℕ := (ps.map fun s => (s.id.owns x).toNat).sum

/-- The length of what the population owns, counted once for every owner. -/
def totalShare (ps : List Stamp) : ℚ := (ps.map fun s => s.id.share).sum

@[simp] theorem owners_cons (s : Stamp) (ps : List Stamp) (x : Point) :
    owners (s :: ps) x = (s.id.owns x).toNat + owners ps x := by
  simp [owners]

@[simp] theorem totalShare_cons (s : Stamp) (ps : List Stamp) :
    totalShare (s :: ps) = s.id.share + totalShare ps := by
  simp [totalShare]

theorem owners_perm (h : ps.Perm qs) (x : Point) :
    owners ps x = owners qs x :=
  (h.map _).sum_eq

theorem totalShare_perm (h : ps.Perm qs) : totalShare ps = totalShare qs :=
  (h.map _).sum_eq

theorem one_le_owners_iff (ps : List Stamp) (x : Point) :
    1 ≤ owners ps x ↔ ∃ s ∈ ps, s.id.owns x = true := by
  induction ps with
  | nil => simp [owners]
  | cons s ps ih =>
    rw [owners_cons, List.exists_mem_cons_iff, ← ih]
    cases s.id.owns x <;> simp

theorem owners_le_one_iff (ps : List Stamp) (x : Point) :
    owners ps x ≤ 1 ↔ ps.Pairwise fun s t => ¬ (s.id.owns x = true ∧ t.id.owns x = true) := by
  induction ps with
  | nil => simp [owners]
  | cons s ps ih =>
    rw [owners_cons, List.pairwise_cons, ← ih]
    cases hs : s.id.owns x with
    | false => simp
    | true =>
      -- the head owns the point, so nobody behind it may
      have hex := one_le_owners_iff ps x
      constructor
      · intro h
        have h0 : owners ps x = 0 := by simpa using h
        refine ⟨fun t ht hst => ?_, by omega⟩
        have := hex.mpr ⟨t, ht, hst.2⟩
        omega
      · rintro ⟨h, -⟩
        have h0 : ¬ 1 ≤ owners ps x := fun h1 => by
          obtain ⟨t, ht, htx⟩ := hex.mp h1
          exact h t ht ⟨rfl, htx⟩
        simp; omega

/-- A population is a partition when every point has exactly one owner. -/
theorem partition_iff (ps : List Stamp) : Partition ps ↔ ∀ x, owners ps x = 1 := by
  have happ : ps.Pairwise Apart ↔ ∀ x, owners ps x ≤ 1 := by
    simp only [owners_le_one_iff, List.pairwise_iff_getElem, Apart]
    exact ⟨fun h x i j hi hj hij => h i j hi hj hij x, fun h i j hi hj hij x => h x i j hi hj hij⟩
  rw [Partition, happ]
  simp only [← one_le_owners_iff]
  exact ⟨fun h x => le_antisymm (h.1 x) (h.2 x), fun h => ⟨fun x => (h x).le, fun x => (h x).ge⟩⟩

/-! ### The shares of a partition add up to one -/

namespace Id

/-- The identity's part in the left half of the interval. -/
def left : Id → Id
  | leaf b => leaf b
  | node l _ => l

/-- The identity's part in the right half of the interval. -/
def right : Id → Id
  | leaf b => leaf b
  | node _ r => r

/-- Levels of nodes below the root. -/
def depth : Id → ℕ
  | leaf _ => 0
  | node l r => max l.depth r.depth + 1

theorem owns_left (id : Id) (x : Point) : id.left.owns x = id.owns (Point.cons false x) := by
  cases id <;> rfl

theorem owns_right (id : Id) (x : Point) : id.right.owns x = id.owns (Point.cons true x) := by
  cases id <;> rfl

theorem share_halves (id : Id) : id.share = (id.left.share + id.right.share) / 2 := by
  cases id with
  | leaf b => simp [left, right]
  | node l r => rfl

theorem depth_halves {id : Id} {d : ℕ} (h : id.depth ≤ d + 1) :
    id.left.depth ≤ d ∧ id.right.depth ≤ d := by
  cases id with
  | leaf b => simp [left, right, depth]
  | node l r => simp only [depth] at h; simp only [left, right]; omega

/-- If every point has `c` owners, the shares add up to `c`.  The induction is
on a bound for the depths: one level down the owners of the left half and those
of the right half are counted apart. -/
theorem sum_share_eq {c : ℕ} : ∀ (d : ℕ) (ids : List Id), (∀ id ∈ ids, id.depth ≤ d) →
    (∀ x, (ids.map fun id => (id.owns x).toNat).sum = c) → (ids.map share).sum = c
  | 0, ids, hd, hc => by
    have hleaf : ∀ id ∈ ids, id.share = ((id.owns fun _ => false).toNat : ℚ) := by
      intro id hid
      have h0 := hd id hid
      cases id with
      | leaf b => cases b <;> simp [share]
      | node l r => simp [depth] at h0
    rw [List.map_congr_left hleaf, ← hc fun _ => false, Nat.cast_list_sum, List.map_map]
    rfl
  | d + 1, ids, hd, hc => by
    have hl := sum_share_eq d (ids.map left)
      (by simpa using fun id hid => (depth_halves (hd id hid)).1)
      (fun x => by simpa [Function.comp_def, owns_left] using hc (Point.cons false x))
    have hr := sum_share_eq d (ids.map right)
      (by simpa using fun id hid => (depth_halves (hd id hid)).2)
      (fun x => by simpa [Function.comp_def, owns_right] using hc (Point.cons true x))
    rw [List.map_map] at hl hr
    calc (ids.map share).sum
        = (ids.map fun id => (id.left.share + id.right.share) / 2).sum := by
          rw [List.map_congr_left fun id _ => share_halves id]
      _ = ((ids.map (share ∘ left)).sum + (ids.map (share ∘ right)).sum) / 2 := by
          simp only [div_eq_mul_inv, List.sum_map_mul_right, List.sum_map_add]
          rfl
      _ = c := by rw [hl, hr]; ring

end Id

theorem totalShare_eq_one (h : Partition ps) : totalShare ps = 1 := by
  rw [partition_iff] at h
  have hd : ∀ id ∈ ps.map Stamp.id, id.depth ≤ ((ps.map Stamp.id).map Id.depth).sum :=
    fun id hid => List.le_sum_of_mem (List.mem_map_of_mem hid)
  have := Id.sum_share_eq (c := 1) _ _ hd
    (fun x => by simpa [owners, Function.comp_def] using h x)
  simpa [totalShare, Function.comp_def] using this

/-! ### Runs -/

/-- Every identity of the population is tight. -/
def AllTight (ps : List Stamp) : Prop := ∀ s ∈ ps, s.id.Tight

theorem allTight_perm (h : ps.Perm qs) : AllTight ps ↔ AllTight qs :=
  forall_congr' fun _ => by rw [h.mem_iff]

theorem step_allTight (h : step ps op = some ps') (ht : AllTight ps) : AllTight ps' := by
  rcases step_cases h with ⟨i, s, rest, -, -, hp, hp'⟩ | ⟨i, s, rest, -, hp, hp'⟩ |
    ⟨i, j, s, t, rest, -, hp, hp'⟩
  · rw [allTight_perm hp] at ht
    rw [allTight_perm hp']
    have hs := Id.fork_tight (ht s (by simp))
    simp only [AllTight, List.mem_cons, forall_eq_or_imp] at ht ⊢
    exact ⟨hs.1, hs.2, ht.2⟩
  · rw [allTight_perm hp] at ht
    rw [allTight_perm hp']
    simpa [AllTight, Stamp.recordEvent] using ht
  · rw [allTight_perm hp] at ht
    rw [allTight_perm hp']
    have hst := Id.join_tight (ht s (by simp)) (ht t (by simp))
    simp only [AllTight, List.mem_cons, forall_eq_or_imp] at ht ⊢
    exact ⟨hst, ht.2.2⟩

/-- A clean operation keeps a partition. -/
theorem step_partition (h : step ps op = some ps')
    (hc : Clean ps op) (hp : Partition ps) : Partition ps' := by
  rw [partition_iff] at hp ⊢
  intro x
  rw [← hp x]
  have hx := hp x
  rcases step_cases h with ⟨i, s, rest, rfl, hs, hperm, hperm'⟩ |
    ⟨i, s, rest, -, hperm, hperm'⟩ | ⟨i, j, s, t, rest, -, hperm, hperm'⟩
  · have hf := Id.pairOwners_fork (hc s hs) x
    rw [owners_perm hperm, owners_perm hperm']
    simp only [owners_cons, ← hf, Stamp.fork, Id.pairOwners]
    omega
  · rw [owners_perm hperm, owners_perm hperm']
    simp [Stamp.recordEvent]
  · rw [owners_perm hperm] at hx ⊢
    rw [owners_perm hperm']
    simp only [owners_cons, Stamp.join, Id.owns_join] at hx ⊢
    -- the two joined stamps are apart at `x`, so the union counts them once
    cases hsx : s.id.owns x <;> cases htx : t.id.owns x <;> simp_all

/-- An operation that is not clean breaks a partition: its shares add up to more
than one. -/
theorem clean_of_partition (h : step ps op = some ps')
    (ht : AllTight ps) (hp : Partition ps) (hp' : Partition ps') : Clean ps op := by
  have h1 := totalShare_eq_one hp
  have h1' := totalShare_eq_one hp'
  rcases step_cases h with ⟨i, s, rest, rfl, hs, hperm, hperm'⟩ |
    ⟨i, s, rest, rfl, -, -⟩ | ⟨i, j, s, t, rest, rfl, -, -⟩
  · intro s' hs'
    cases hs.symm.trans hs'
    by_contra hb
    rw [totalShare_perm hperm, totalShare_cons] at h1
    rw [totalShare_perm hperm', totalShare_cons, totalShare_cons] at h1'
    have hlt := Id.share_fork_lt (ht s (hperm.mem_iff.mpr (by simp))) (by simpa using hb)
    simp only [Stamp.fork] at h1'
    linarith
  · trivial
  · trivial

theorem clean_of_step_none (h : step ps op = none) : Clean ps op := by
  cases op with
  | fork i => intro s hs; simp [step, hs] at h
  | event i => trivial
  | join i j => trivial

theorem throughout_iff_of_partition : ∀ (ops : List Op) {ps : List Stamp}, AllTight ps →
    Partition ps → (Throughout Partition ps ops ↔ CleanRun ps ops)
  | [], ps, _, hp => iff_of_true hp trivial
  | op :: ops, ps, ht, hp => by
    constructor
    · rintro ⟨-, h⟩
      have hclean : Clean ps op := by
        cases hs : step ps op with
        | none => exact clean_of_step_none hs
        | some ps' =>
          have hp' : Partition ps' := by
            have := h ps' hs
            cases ops with
            | nil => exact this
            | cons => exact this.1
          exact clean_of_partition hs ht hp hp'
      refine ⟨hclean, fun ps' hs => ?_⟩
      exact (throughout_iff_of_partition ops (step_allTight hs ht)
        (step_partition hs hclean hp)).mp (h ps' hs)
    · rintro ⟨hclean, h⟩
      refine ⟨hp, fun ps' hs => ?_⟩
      exact (throughout_iff_of_partition ops (step_allTight hs ht)
        (step_partition hs hclean hp)).mpr (h ps' hs)

theorem allTight_seed : AllTight [Stamp.seed] := by
  simp [AllTight, Stamp.seed, Id.seed, Id.Tight]

theorem partition_seed : Partition [Stamp.seed] := by
  rw [partition_iff]
  intro x
  simp [owners, Stamp.seed, Id.seed]

/-- **Disjointness of identities.**  A run from the seed keeps the identities of
the live stamps a partition of the interval, at every point of the run, exactly
when no fork of the run splits a node both of whose halves hold identity. -/
theorem throughout_partition_iff (ops : List Op) :
    Throughout Partition [Stamp.seed] ops ↔ CleanRun [Stamp.seed] ops :=
  throughout_iff_of_partition ops allTight_seed partition_seed

/-- Two forks, a join of pieces that are not neighbours, and a third fork: the
last one hands the left half to one stamp as the whole interval. -/
theorem fork_of_joined_pieces_overlaps :
    ¬ Throughout Partition [Stamp.seed] [.fork 0, .fork 1, .join 0 2, .fork 0] := by
  rw [throughout_iff_of_partition _ allTight_seed partition_seed]
  simp [CleanRun, Clean, step, Stamp.seed, Stamp.fork, Stamp.join, Id.seed, Id.fork, Id.isZero,
    Id.join, Id.normalize, Id.collapse, Id.splitsBoth]

end Itc
end ElaraMesh
