import Mathlib.Data.List.AList
import Mathlib.Algebra.BigOperators.Group.List.Basic
import Mathlib.Algebra.Order.BigOperators.Group.Finset
import Mathlib.Algebra.BigOperators.Group.Finset.Piecewise
import Mathlib.Tactic.Common
import Mathlib.Algebra.GroupWithZero.Nat

/-!
# Tables

A hash map is a list of entries with distinct keys.  No result may rest on the order in
which a map is walked, so a walk goes through `Iteration`, which is free to permute the
entries of every table.

## Main definitions

* `Table κ ν` — a finite map.
* `Table.getD`, `Table.values`, `Table.upsert`, `Table.retain` — reads and bulk updates.
* `Table.total` — the sum of a weight over the entries.
* `Iteration` — an order in which the entries of tables are walked, `Iteration.stored` one.
-/

/-- A finite map: entries with distinct keys. -/
abbrev Table (κ ν : Type) : Type := AList fun _ : κ => ν

namespace Table

variable {κ ν : Type}

def values (t : Table κ ν) : List ν := t.entries.map Sigma.snd

/-- Keep the entries that satisfy a predicate. -/
def retain (p : κ → ν → Bool) (t : Table κ ν) : Table κ ν where
  entries := t.entries.filter fun e => p e.1 e.2
  nodupKeys := t.nodupKeys.sublist List.filter_sublist

def mapValues (f : ν → ν) (t : Table κ ν) : Table κ ν where
  entries := t.entries.map fun e => ⟨e.1, f e.2⟩
  nodupKeys := by
    have hkeys : (t.entries.map fun e => (⟨e.1, f e.2⟩ : Sigma fun _ : κ => ν)).keys =
        t.entries.keys := by
      unfold List.keys
      rw [List.map_map]
      rfl
    unfold List.NodupKeys
    rw [hkeys]
    exact t.nodupKeys

def total (w : κ → ν → ℕ) (t : Table κ ν) : ℕ := (t.entries.map fun e => w e.1 e.2).sum

@[simp] theorem total_empty (w : κ → ν → ℕ) : total w (∅ : Table κ ν) = 0 := rfl

variable [DecidableEq κ]

def getD (t : Table κ ν) (k : κ) (default : ν) : ν := (t.lookup k).getD default

/-- Update the value at a key that may be missing. -/
def upsert (t : Table κ ν) (k : κ) (default : ν) (f : ν → ν) : Table κ ν :=
  t.insert k (f (t.getD k default))

@[simp] theorem getD_empty (k : κ) (d : ν) : getD (∅ : Table κ ν) k d = d := rfl

theorem lookup_insert_eq (t : Table κ ν) (a k : κ) (v : ν) :
    (t.insert a v).lookup k = if k = a then some v else t.lookup k := by
  split
  · next h => rw [h, AList.lookup_insert]
  · next h => exact AList.lookup_insert_ne h

theorem getD_insert (t : Table κ ν) (a k : κ) (v d : ν) :
    getD (t.insert a v) k d = if k = a then v else t.getD k d := by
  unfold getD
  rw [lookup_insert_eq]
  split <;> rfl

theorem lookup_erase_eq (t : Table κ ν) (a k : κ) :
    (t.erase a).lookup k = if k = a then none else t.lookup k := by
  split
  · next h => rw [h, AList.lookup_erase]
  · next h => exact AList.lookup_erase_ne h

theorem getD_erase (t : Table κ ν) (a k : κ) (d : ν) :
    getD (t.erase a) k d = if k = a then d else t.getD k d := by
  unfold getD
  rw [lookup_erase_eq]
  split <;> rfl

variable {t : Table κ ν} {k : κ}

theorem lookup_retain {p : κ → ν → Bool} {v : ν} :
    (t.retain p).lookup k = some v ↔ t.lookup k = some v ∧ p k v := by
  rw [← Option.mem_def, AList.mem_lookup_iff, ← Option.mem_def, AList.mem_lookup_iff]
  exact List.mem_filter

@[simp] theorem lookup_mapValues (f : ν → ν) (t : Table κ ν) (k : κ) :
    (t.mapValues f).lookup k = (t.lookup k).map f := by
  have hentries : ∀ l : List (Sigma fun _ : κ => ν),
      (l.map fun e => (⟨e.1, f e.2⟩ : Sigma fun _ : κ => ν)).dlookup k = (l.dlookup k).map f := by
    intro l
    induction l with
    | nil => rfl
    | cons e l ih =>
      obtain ⟨j, v⟩ := e
      by_cases hj : k = j
      · subst hj
        rw [List.map_cons, List.dlookup_cons_eq, List.dlookup_cons_eq]
        rfl
      · rw [List.map_cons, List.dlookup_cons_ne _ _ hj, List.dlookup_cons_ne _ _ hj]
        exact ih
  exact hentries t.entries

/-- What is found after insertions was inserted or there before. -/
theorem of_lookup_foldl_insert {l : List (κ × ν)} {v : ν}
    (h : (l.foldl (fun t e => t.insert e.1 e.2) t).lookup k = some v) :
    (k, v) ∈ l ∨ t.lookup k = some v := by
  induction l generalizing t with
  | nil => exact .inr h
  | cons e l ih =>
    rcases ih h with hmem | hfound
    · exact .inl (List.mem_cons_of_mem _ hmem)
    · rw [lookup_insert_eq] at hfound
      split at hfound
      · next hk =>
        cases hk
        cases hfound
        exact .inl List.mem_cons_self
      · exact .inr hfound

theorem exists_lookup_foldl_insert {l : List (κ × ν)}
    (h : k ∈ l.map Prod.fst ∨ ∃ v, t.lookup k = some v) :
    ∃ v, (l.foldl (fun t e => t.insert e.1 e.2) t).lookup k = some v := by
  induction l generalizing t with
  | nil => exact h.resolve_left nofun
  | cons e l ih =>
    refine ih ?_
    rw [List.map_cons, List.mem_cons] at h
    rw [lookup_insert_eq]
    by_cases hk : k = e.1
    · exact .inr ⟨e.2, if_pos hk⟩
    · rw [if_neg hk]
      exact h.imp_left (Or.resolve_left · hk)

/-- An index that is built up entry by entry holds the entries it is built from. -/
theorem mem_foldl_upsert {α β : Type} (key : α → κ) (value : α → β) (l : List α)
    (index : Table κ (List β)) (k : κ) (v : β) :
    v ∈ (l.foldl (fun index a => index.upsert (key a) [] fun vs => vs ++ [value a])
        index).getD k [] ↔
      v ∈ index.getD k [] ∨ ∃ a ∈ l, key a = k ∧ value a = v := by
  induction l generalizing index with
  | nil => simp
  | cons a l ih =>
    have hgetD : (index.upsert (key a) [] fun vs => vs ++ [value a]).getD k [] =
        if k = key a then index.getD (key a) [] ++ [value a] else index.getD k [] :=
      getD_insert _ _ _ _ _
    rw [List.foldl_cons, ih, hgetD, List.exists_mem_cons_iff, ← or_assoc]
    refine or_congr_left ?_
    by_cases hk : k = key a
    · rw [if_pos hk, List.mem_append, List.mem_singleton, and_iff_right hk.symm, hk, eq_comm (a := v)]
    · rw [if_neg hk, or_iff_left fun h => hk h.1.symm]

/-- A table is empty, or has an entry more than a table without its key. -/
@[elab_as_elim] theorem induction {motive : Table κ ν → Prop} (empty : motive ∅)
    (insert : ∀ (k : κ) (v : ν) (t : Table κ ν), k ∉ t → motive t → motive (t.insert k v))
    (t : Table κ ν) : motive t :=
  AList.insertRec empty insert t

/-! ### Totals -/

theorem total_insert_of_notMem (h : k ∉ t) (v : ν) (w : κ → ν → ℕ) :
    total w (t.insert k v) = w k v + total w t := by
  unfold total
  rw [AList.entries_insert_of_notMem h, List.map_cons, List.sum_cons]

theorem sum_kerase (w : κ → ν → ℕ) (k : κ) (l : List (Sigma fun _ : κ => ν)) :
    ((l.kerase k).map fun e => w e.1 e.2).sum + ((l.dlookup k).map (w k)).getD 0 =
      (l.map fun e => w e.1 e.2).sum := by
  induction l with
  | nil => rfl
  | cons e l ih =>
    obtain ⟨j, v⟩ := e
    by_cases hj : k = j
    · subst hj
      have herase : List.kerase k (⟨k, v⟩ :: l) = l := List.kerase_cons_eq rfl
      rw [herase, List.dlookup_cons_eq, List.map_cons, List.sum_cons, Nat.add_comm]
      rfl
    · rw [List.kerase_cons_ne hj, List.dlookup_cons_ne _ _ hj, List.map_cons, List.map_cons,
        List.sum_cons, List.sum_cons, Nat.add_assoc, ih]

/-- An insert replaces the weight of the entry under the same key. -/
theorem total_insert (w : κ → ν → ℕ) (t : Table κ ν) (k : κ) (v : ν) :
    total w (t.insert k v) + ((t.lookup k).map (w k)).getD 0 = total w t + w k v := by
  have herase := sum_kerase w k t.entries
  have hinsert : total w (t.insert k v) =
      w k v + ((t.entries.kerase k).map fun e => w e.1 e.2).sum := by
    unfold total
    rw [AList.entries_insert, List.map_cons, List.sum_cons]
  unfold AList.lookup
  unfold total at hinsert ⊢
  omega

omit [DecidableEq κ] in
/-- The number of values of a kind. -/
theorem total_indicator (p : ν → Bool) (t : Table κ ν) :
    total (fun _ v => if p v then 1 else 0) t = (t.values.filter p).length := by
  unfold total values
  induction t.entries with
  | nil => rfl
  | cons e l ih =>
    rw [List.map_cons, List.map_cons, List.sum_cons, ih, List.filter_cons]
    dsimp only
    split
    · exact Nat.add_comm _ _
    · exact Nat.zero_add _

theorem length_le_length_insert (t : Table κ ν) (k : κ) (v : ν) :
    t.entries.length ≤ (t.insert k v).entries.length := by
  have hinsert := total_insert (fun _ _ => 1) t k v
  have hlength : ∀ t : Table κ ν, total (fun _ _ => 1) t = t.entries.length := by
    intro t
    simp [total]
  have hone : ((t.lookup k).map fun _ => 1).getD 0 ≤ 1 := by
    cases t.lookup k <;> simp
  rw [hlength, hlength] at hinsert
  omega

/-- The weights at some keys are a part of the total. -/
theorem sum_weight_le_total {w : ν → ℕ} {d : ν} (hd : w d = 0) (t : Table κ ν) (keys : Finset κ) :
    ∑ k ∈ keys, w (t.getD k d) ≤ t.total fun _ v => w v := by
  induction t using Table.induction with
  | empty =>
    refine (Finset.sum_eq_zero fun k _ => ?_).le
    exact hd
  | insert k v t hk ih =>
    rw [total_insert_of_notMem hk]
    have hsplit : ∀ j ∈ keys,
        w (getD (t.insert k v) j d) ≤ (if j = k then w v else 0) + w (t.getD j d) := by
      intro j _
      rw [getD_insert]
      split
      · exact Nat.le_add_right _ _
      · exact (Nat.zero_add _).ge
    have hone : ∑ j ∈ keys, (if j = k then w v else 0) ≤ w v := by
      rw [Finset.sum_ite_eq' keys k fun _ => w v]
      split
      · exact le_rfl
      · exact Nat.zero_le _
    calc ∑ j ∈ keys, w (getD (t.insert k v) j d)
        ≤ ∑ j ∈ keys, ((if j = k then w v else 0) + w (t.getD j d)) := Finset.sum_le_sum hsplit
      _ = ∑ j ∈ keys, (if j = k then w v else 0) + ∑ j ∈ keys, w (t.getD j d) :=
          Finset.sum_add_distrib
      _ ≤ w v + t.total fun _ v => w v := Nat.add_le_add hone ih

end Table

/-- An order in which the entries of tables are walked. -/
class Iteration where
  walk : ∀ {κ ν : Type}, Table κ ν → List (κ × ν)
  walk_perm : ∀ {κ ν : Type} (t : Table κ ν),
    (walk t).Perm (t.entries.map fun e => (e.1, e.2))

namespace Iteration

variable [Iteration] {κ ν : Type}

theorem mem_walk [DecidableEq κ] {t : Table κ ν} {k : κ} {v : ν} :
    (k, v) ∈ walk t ↔ t.lookup k = some v := by
  rw [(walk_perm t).mem_iff]
  have hmem : (k, v) ∈ t.entries.map (fun e => (e.1, e.2)) ↔
      (⟨k, v⟩ : Sigma fun _ : κ => ν) ∈ t.entries := by
    simp
  rw [hmem]
  exact AList.mem_lookup_iff.symm

/-- The walk in the order in which the entries are kept. -/
@[reducible] def stored : Iteration where
  walk t := t.entries.map fun e => (e.1, e.2)
  walk_perm _ := List.Perm.refl _

end Iteration
