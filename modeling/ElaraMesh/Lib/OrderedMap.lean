import Mathlib.Data.List.Sort
import Mathlib.Data.List.DropRight
import Mathlib.Tactic.Common

/-!
# Ordered maps

A map that is walked in the order of its keys is a list of entries with strictly increasing
keys.  It is determined by its lookups, so two ways to fill it are compared key by key.

## Main results

* `OrderedMap.get?_upsert` — what an update does to every lookup.
* `OrderedMap.get?_popFirstWhile`, `OrderedMap.get?_popLastWhile` — what is left when the keys
  below, or above, a bound are dropped.
* `OrderedMap.mem_takeWhile_dropWhile` — what a walk over a range of keys meets.
* `OrderedMap.ext_get?` — a map is determined by its lookups.
-/

/-- A map: entries with strictly increasing keys. -/
@[ext] structure OrderedMap (κ ν : Type) [LinearOrder κ] where
  entries : List (κ × ν)
  sorted : entries.Pairwise fun a b => a.1 < b.1

namespace OrderedMap

variable {κ ν : Type} [LinearOrder κ]

def empty : OrderedMap κ ν := ⟨[], .nil⟩

instance : EmptyCollection (OrderedMap κ ν) := ⟨empty⟩

def get? (m : OrderedMap κ ν) (k : κ) : Option ν := (m.entries.find? (·.1 = k)).map Prod.snd

def length (m : OrderedMap κ ν) : ℕ := m.entries.length

def values (m : OrderedMap κ ν) : List ν := m.entries.map Prod.snd

def firstKey? (m : OrderedMap κ ν) : Option κ := m.entries.head?.map Prod.fst

def lastKey? (m : OrderedMap κ ν) : Option κ := m.entries.getLast?.map Prod.fst

/-- Insert into entries at its place, or change the value that is there. -/
def upsertEntries (k : κ) (v : ν) (f : ν → ν) : List (κ × ν) → List (κ × ν)
  | [] => [(k, v)]
  | (a, b) :: rest =>
    if k < a then (k, v) :: (a, b) :: rest
    else if k = a then (a, f b) :: rest
    else (a, b) :: upsertEntries k v f rest

variable {k : κ} {l : List (κ × ν)} {m : OrderedMap κ ν}

theorem mem_upsertEntries {v : ν} {f : ν → ν} {e : κ × ν}
    (h : e ∈ upsertEntries k v f l) : e.1 = k ∨ e ∈ l := by
  induction l with
  | nil => exact .inl (by rw [List.mem_singleton.mp h])
  | cons head rest ih =>
    obtain ⟨a, b⟩ := head
    unfold upsertEntries at h
    split_ifs at h with hlt heq
    · rcases List.mem_cons.mp h with rfl | h
      · exact .inl rfl
      · exact .inr h
    · rcases List.mem_cons.mp h with rfl | h
      · exact .inl heq.symm
      · exact .inr (List.mem_cons_of_mem _ h)
    · rcases List.mem_cons.mp h with rfl | h
      · exact .inr List.mem_cons_self
      · exact (ih h).imp id (List.mem_cons_of_mem _)

theorem sorted_upsertEntries (k : κ) (v : ν) (f : ν → ν) (hl : l.Pairwise fun a b => a.1 < b.1) :
    (upsertEntries k v f l).Pairwise fun a b => a.1 < b.1 := by
  induction l with
  | nil => exact List.pairwise_singleton _ _
  | cons head rest ih =>
    obtain ⟨a, b⟩ := head
    obtain ⟨hhead, hrest⟩ := List.pairwise_cons.mp hl
    unfold upsertEntries
    split_ifs with hlt heq
    · refine List.pairwise_cons.mpr ⟨fun e he => ?_, hl⟩
      rcases List.mem_cons.mp he with rfl | he
      · exact hlt
      · exact hlt.trans (hhead e he)
    · exact List.pairwise_cons.mpr ⟨hhead, hrest⟩
    · refine List.pairwise_cons.mpr ⟨fun e he => ?_, ih hrest⟩
      rcases mem_upsertEntries he with hk | he
      · rw [hk]
        exact lt_of_le_of_ne (not_lt.mp hlt) (Ne.symm heq)
      · exact hhead e he

/-- Insert a value at a key, or change the value that is there. -/
def upsert (m : OrderedMap κ ν) (k : κ) (v : ν) (f : ν → ν) : OrderedMap κ ν where
  entries := upsertEntries k v f m.entries
  sorted := sorted_upsertEntries k v f m.sorted

/-- Drop entries at the low end as long as their keys satisfy a test. -/
def popFirstWhile (m : OrderedMap κ ν) (p : κ → Bool) : OrderedMap κ ν where
  entries := m.entries.dropWhile fun e => p e.1
  sorted := m.sorted.sublist (List.dropWhile_sublist _)

/-- Drop entries at the high end as long as their keys satisfy a test. -/
def popLastWhile (m : OrderedMap κ ν) (p : κ → Bool) : OrderedMap κ ν where
  entries := m.entries.rdropWhile fun e => p e.1
  sorted := m.sorted.sublist (List.rdropWhile_prefix _ _).sublist

/-! ### Lookups -/

theorem fst_ne_of_lt (h : ∀ e ∈ l, k < e.1) :
    l.find? (·.1 = k) = none :=
  List.find?_eq_none.mpr fun e he => by simpa using (h e he).ne'

/-- A key has the value of its entry. -/
theorem get?_eq_some {v : ν} :
    m.get? k = some v ↔ (k, v) ∈ m.entries := by
  obtain ⟨l, hl⟩ := m
  unfold get?
  induction l with
  | nil => simp
  | cons head rest ih =>
    obtain ⟨a, b⟩ := head
    obtain ⟨hhead, hrest⟩ := List.pairwise_cons.mp hl
    by_cases h : a = k
    · subst h
      have hnone : (a, v) ∉ rest := fun hmem => lt_irrefl a (hhead (a, v) hmem)
      simp only [List.find?_cons, decide_true, Option.map_some, Option.some.injEq,
        List.mem_cons, Prod.mk.injEq, true_and, hnone, or_false]
      exact eq_comm
    · simp only [List.find?_cons, h, decide_false, List.mem_cons, Prod.mk.injEq, Ne.symm h,
        false_and, false_or]
      exact ih hrest

/-- A map is determined by its lookups. -/
theorem ext_get? {m' : OrderedMap κ ν} (h : ∀ k, m.get? k = m'.get? k) : m = m' := by
  have : Std.Irrefl fun a b : κ × ν => a.1 < b.1 := ⟨fun a => lt_irrefl a.1⟩
  have : Std.Antisymm fun a b : κ × ν => a.1 < b.1 := ⟨fun _ _ hab hba => absurd hab hba.asymm⟩
  refine OrderedMap.ext (m.sorted.eq_of_mem_iff m'.sorted fun e => ?_)
  rw [← get?_eq_some (m := m), ← get?_eq_some (m := m'), h]

theorem find?_cons_ne {a j : κ} (h : a ≠ j) (b : ν) (l : List (κ × ν)) :
    ((a, b) :: l).find? (·.1 = j) = l.find? (·.1 = j) :=
  List.find?_cons_of_neg (by simpa using h)

theorem find?_cons_self (a : κ) (b : ν) (l : List (κ × ν)) :
    ((a, b) :: l).find? (·.1 = a) = some (a, b) :=
  List.find?_cons_of_pos (by simp)

/-- The key of an update gets the new value, or the changed one. -/
theorem find?_upsertEntries_self (k : κ) (v : ν) (f : ν → ν)
    (hl : l.Pairwise fun a b => a.1 < b.1) :
    (upsertEntries k v f l).find? (·.1 = k) =
      some (k, ((l.find? (·.1 = k)).map Prod.snd).elim v f) := by
  induction l with
  | nil => exact find?_cons_self k v []
  | cons head rest ih =>
    obtain ⟨a, b⟩ := head
    obtain ⟨hhead, hrest⟩ := List.pairwise_cons.mp hl
    unfold upsertEntries
    split_ifs with hlt heq
    · -- the new entry comes first: no entry has its key
      have hnone : rest.find? (·.1 = k) = none := fst_ne_of_lt fun e he => hlt.trans (hhead e he)
      rw [find?_cons_self, find?_cons_ne hlt.ne', hnone]
      rfl
    · subst heq
      rw [find?_cons_self, find?_cons_self]
      rfl
    · rw [find?_cons_ne (Ne.symm heq), find?_cons_ne (Ne.symm heq), ih hrest]

/-- Another key keeps its value. -/
theorem find?_upsertEntries_ne {j : κ} (h : k ≠ j) (v : ν) (f : ν → ν) (l : List (κ × ν)) :
    (upsertEntries k v f l).find? (·.1 = j) = l.find? (·.1 = j) := by
  induction l with
  | nil => exact find?_cons_ne h v []
  | cons head rest ih =>
    obtain ⟨a, b⟩ := head
    unfold upsertEntries
    split_ifs with hlt heq
    · exact find?_cons_ne h v _
    · rw [find?_cons_ne (heq ▸ h), find?_cons_ne (heq ▸ h)]
    · by_cases haj : a = j
      · subst haj
        rw [find?_cons_self, find?_cons_self]
      · rw [find?_cons_ne haj, find?_cons_ne haj, ih]

/-- **What an update does to every lookup.** -/
theorem get?_upsert (m : OrderedMap κ ν) (k : κ) (v : ν) (f : ν → ν) (j : κ) :
    (m.upsert k v f).get? j = if j = k then some ((m.get? k).elim v f) else m.get? j := by
  unfold get? upsert
  split_ifs with h
  · rw [h, find?_upsertEntries_self k v f m.sorted]
    rfl
  · rw [find?_upsertEntries_ne (Ne.symm h)]

theorem mem_dropWhile_lt {bound : κ} (hl : l.Pairwise fun a b => a.1 < b.1)
    (e : κ × ν) : e ∈ l.dropWhile (fun e => e.1 < bound) ↔ e ∈ l ∧ ¬ e.1 < bound := by
  induction l with
  | nil => simp
  | cons head rest ih =>
    obtain ⟨hhead, hrest⟩ := List.pairwise_cons.mp hl
    by_cases h : head.1 < bound
    · rw [List.dropWhile_cons_of_pos (by simpa using h), ih hrest, List.mem_cons]
      refine ⟨fun he => ⟨.inr he.1, he.2⟩, fun he => ⟨he.1.resolve_left ?_, he.2⟩⟩
      rintro rfl
      exact he.2 h
    · rw [List.dropWhile_cons_of_neg (by simpa using h)]
      refine ⟨fun he => ⟨he, ?_⟩, And.left⟩
      rcases List.mem_cons.mp he with rfl | he
      · exact h
      · exact fun hlt => h ((hhead e he).trans hlt)

/-- A walk from a key on, as long as a test holds, meets the keys of the test, if these follow
the key without a gap. -/
theorem mem_takeWhile_dropWhile (bound : κ) (p : κ → Bool)
    (hbound : ∀ k, p k = true → bound ≤ k)
    (hconvex : ∀ a b, bound ≤ a → a ≤ b → p b = true → p a = true)
    (hl : l.Pairwise fun a b => a.1 < b.1) (e : κ × ν) :
    e ∈ (l.dropWhile fun e => e.1 < bound).takeWhile (fun e => p e.1) ↔ e ∈ l ∧ p e.1 = true := by
  have hmem : ∀ e, e ∈ l.dropWhile (fun e => e.1 < bound) ↔ e ∈ l ∧ ¬ e.1 < bound :=
    mem_dropWhile_lt hl
  have hsorted := hl.sublist (List.dropWhile_sublist fun e => decide (e.1 < bound))
  constructor
  · intro he
    refine ⟨((hmem e).mp ((List.takeWhile_prefix _).sublist.mem he)).1, ?_⟩
    simpa using List.mem_takeWhile_imp he
  · rintro ⟨he, hp⟩
    have hdrop := (hmem e).mpr ⟨he, not_lt.mpr (hbound e.1 hp)⟩
    -- everything up to the entry passes the test
    obtain ⟨before, after, hsplit⟩ := List.append_of_mem hdrop
    rw [hsplit] at hsorted ⊢
    have hbefore : ∀ a ∈ before, p a.1 = true := by
      intro a ha
      have hge := ((hmem a).mp (by rw [hsplit]; exact List.mem_append_left _ ha)).2
      have hlt := (List.pairwise_append.mp hsorted).2.2 a ha e List.mem_cons_self
      exact hconvex a.1 e.1 (not_lt.mp hge) hlt.le hp
    rw [List.takeWhile_append_of_pos hbefore, List.takeWhile_cons, if_pos hp]
    exact List.mem_append_right _ List.mem_cons_self

theorem mem_rdropWhile_gt {bound : κ} (hl : l.Pairwise fun a b => a.1 < b.1)
    (e : κ × ν) : e ∈ l.rdropWhile (fun e => bound < e.1) ↔ e ∈ l ∧ ¬ bound < e.1 := by
  induction l using List.reverseRecOn with
  | nil => simp
  | append_singleton front last ih =>
    obtain ⟨hfront, -, hlast⟩ := List.pairwise_append.mp hl
    by_cases h : bound < last.1
    · rw [List.rdropWhile_concat_pos _ _ _ (by simpa using h), ih hfront, List.mem_append,
        List.mem_singleton]
      refine ⟨fun he => ⟨.inl he.1, he.2⟩, fun he => ⟨he.1.resolve_right ?_, he.2⟩⟩
      rintro rfl
      exact he.2 h
    · rw [List.rdropWhile_concat_neg _ _ _ (by simpa using h)]
      refine ⟨fun he => ⟨he, ?_⟩, And.left⟩
      rcases List.mem_append.mp he with he | he
      · exact fun hlt => h (hlt.trans (hlast e he last (List.mem_singleton_self _)))
      · rwa [List.mem_singleton.mp he]

theorem get?_eq_ite {m' : OrderedMap κ ν} {p : κ → Prop} [DecidablePred p]
    (h : ∀ e, e ∈ m'.entries ↔ e ∈ m.entries ∧ ¬ p e.1) (j : κ) :
    m'.get? j = if p j then none else m.get? j := by
  ext v
  rw [get?_eq_some, h (j, v)]
  split_ifs with hj
  · simp [hj]
  · rw [get?_eq_some]
    simp [hj]

/-- A key stays when the entries below a bound are dropped, if it does not lie below. -/
theorem get?_popFirstWhile (m : OrderedMap κ ν) (bound j : κ) :
    (m.popFirstWhile (· < bound)).get? j = if j < bound then none else m.get? j :=
  get?_eq_ite (p := (· < bound)) (mem_dropWhile_lt m.sorted) j

/-- A key stays when the entries above a bound are dropped, if it does not lie above. -/
theorem get?_popLastWhile (m : OrderedMap κ ν) (bound j : κ) :
    (m.popLastWhile (bound < ·)).get? j = if bound < j then none else m.get? j :=
  get?_eq_ite (p := (bound < ·)) (mem_rdropWhile_gt m.sorted) j

end OrderedMap
