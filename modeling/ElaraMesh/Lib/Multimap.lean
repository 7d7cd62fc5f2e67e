import ElaraMesh.Lib.Table
import Mathlib.Data.Finset.Sort

/-!
# Tables of sets

A relation is kept as a table that gives each key the set of the values it is related to.
Some tables drop a key when its set becomes empty, others keep the empty set; a relation
together with `Tight`, which says that no empty set is kept, determines every lookup.

## Main results

* `Table.lookup_eq_of_rel` — tight tables of one relation have the same lookups.
-/

/-- An order in which the members of each set are walked. -/
class SetWalk (α : Type) where
  walk : Finset α → List α
  walk_eq : ∀ s : Finset α, (walk s : Multiset α) = s.val

namespace SetWalk

variable {α : Type}

theorem mem_walk [SetWalk α] {s : Finset α} {a : α} : a ∈ walk s ↔ a ∈ s := by
  rw [← Multiset.mem_coe, walk_eq, Finset.mem_val]

theorem nodup_walk [SetWalk α] (s : Finset α) : (walk s).Nodup := by
  rw [← Multiset.coe_nodup, walk_eq]
  exact s.nodup

/-- The walk from the least member to the greatest. -/
@[reducible] def sorted [LinearOrder α] : SetWalk α where
  walk s := s.sort (· ≤ ·)
  walk_eq s := s.sort_eq (· ≤ ·)

end SetWalk

namespace Table

variable {κ α : Type} [DecidableEq κ]

/-- The relation that a table of sets keeps. -/
def Rel (t : Table κ (Finset α)) (k : κ) (a : α) : Prop := a ∈ t.getD k ∅

/-- No key has an empty set. -/
def Tight (t : Table κ (Finset α)) : Prop := ∀ k, t.lookup k ≠ some ∅

@[simp] theorem rel_empty (k : κ) (a : α) : ¬ Rel (∅ : Table κ (Finset α)) k a :=
  Finset.notMem_empty a

theorem tight_empty : Tight (∅ : Table κ (Finset α)) := fun _ h => nomatch h

variable {t : Table κ (Finset α)} {k j : κ} {s : Finset α} {a : α}

theorem rel_of_lookup (h : t.lookup k = some s) (a : α) : t.Rel k a ↔ a ∈ s := by
  unfold Rel getD
  rw [h, Option.getD_some]

theorem not_rel_of_lookup (h : t.lookup k = none) (a : α) :
    ¬ t.Rel k a := by
  unfold Rel getD
  rw [h, Option.getD_none]
  exact Finset.notMem_empty a

theorem Tight.lookup_eq_none_iff (ht : t.Tight) (k : κ) :
    t.lookup k = none ↔ ∀ a, ¬ t.Rel k a := by
  refine ⟨not_rel_of_lookup, fun h => ?_⟩
  cases hk : t.lookup k with
  | none => rfl
  | some s =>
    have hs : s = ∅ := Finset.eq_empty_of_forall_notMem fun a ha =>
      h a ((rel_of_lookup hk a).mpr ha)
    exact absurd (hs ▸ hk) (ht k)

/-- Tight tables of one relation have the same lookups. -/
theorem lookup_eq_of_rel {t' : Table κ (Finset α)} (ht : t.Tight) (ht' : t'.Tight)
    (h : ∀ k a, t.Rel k a ↔ t'.Rel k a) (k : κ) : t.lookup k = t'.lookup k := by
  cases hk : t.lookup k with
  | none =>
    have hnone := (ht.lookup_eq_none_iff k).mp hk
    exact ((ht'.lookup_eq_none_iff k).mpr fun a ha => hnone a ((h k a).mpr ha)).symm
  | some s =>
    cases hk' : t'.lookup k with
    | none =>
      have hnone := (ht'.lookup_eq_none_iff k).mp hk'
      rw [(ht.lookup_eq_none_iff k).mpr fun a ha => hnone a ((h k a).mp ha)] at hk
      cases hk
    | some s' =>
      refine congrArg some (Finset.ext fun a => ?_)
      rw [← rel_of_lookup hk a, ← rel_of_lookup hk' a]
      exact h k a

theorem rel_insert :
    Rel (t.insert k s) j a ↔ if j = k then a ∈ s else t.Rel j a := by
  unfold Rel
  rw [getD_insert]
  split <;> rfl

theorem tight_insert (ht : t.Tight) (hs : s.Nonempty) : Tight (t.insert k s) := by
  intro j hj
  rw [lookup_insert_eq] at hj
  split at hj
  · exact hs.ne_empty (Option.some.inj hj)
  · exact ht j hj

theorem rel_erase :
    Rel (t.erase k) j a ↔ j ≠ k ∧ t.Rel j a := by
  unfold Rel getD
  rw [lookup_erase_eq]
  by_cases hj : j = k
  · simp [hj]
  · simp [hj]

theorem tight_erase (ht : t.Tight) (k : κ) : Tight (t.erase k) := by
  intro j hj
  rw [lookup_erase_eq] at hj
  split at hj
  · cases hj
  · exact ht j hj

variable [DecidableEq α]

def link (t : Table κ (Finset α)) (k : κ) (a : α) : Table κ (Finset α) := t.upsert k ∅ (insert a)

/-- Take a pair out; a set that becomes empty is dropped. -/
def unlink (t : Table κ (Finset α)) (k : κ) (a : α) : Table κ (Finset α) :=
  match t.lookup k with
  | some s => if s.erase a = ∅ then t.erase k else t.insert k (s.erase a)
  | none => t

@[simp] theorem rel_link {b : α} :
    Rel (t.link k a) j b ↔ (j = k ∧ b = a) ∨ t.Rel j b := by
  unfold link upsert
  rw [rel_insert]
  by_cases hj : j = k
  · subst hj
    rw [if_pos rfl, Finset.mem_insert, and_iff_right rfl]
    rfl
  · simp [hj]

theorem tight_link (ht : t.Tight) (k : κ) (a : α) : Tight (t.link k a) :=
  tight_insert ht (Finset.insert_nonempty a _)

@[simp] theorem rel_unlink {b : α} :
    Rel (t.unlink k a) j b ↔ t.Rel j b ∧ ¬ (j = k ∧ b = a) := by
  unfold unlink
  cases hk : t.lookup k with
  | none =>
    refine ⟨fun h => ⟨h, fun hjk => ?_⟩, And.left⟩
    exact not_rel_of_lookup hk b (hjk.1 ▸ h)
  | some s =>
    have hrest : Rel (if s.erase a = ∅ then t.erase k else t.insert k (s.erase a)) j b ↔
        if j = k then b ∈ s.erase a else t.Rel j b := by
      split
      · next hempty =>
        rw [rel_erase, hempty]
        by_cases hj : j = k <;> simp [hj]
      · exact rel_insert
    rw [hrest]
    by_cases hj : j = k
    · subst hj
      rw [if_pos rfl, Finset.mem_erase, rel_of_lookup hk]
      tauto
    · simp [hj]

theorem tight_unlink (ht : t.Tight) (k : κ) (a : α) :
    Tight (t.unlink k a) := by
  unfold unlink
  cases t.lookup k with
  | none => exact ht
  | some s =>
    dsimp only
    split
    · exact tight_erase ht k
    · next hne => exact tight_insert ht (Finset.nonempty_iff_ne_empty.mpr hne)

end Table
