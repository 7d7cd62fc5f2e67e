import Mathlib.Data.List.AList

/-!
# Buffered writes over a store

A layer holds the writes and the removals that are to be made to a key-value
store, never both for one key.  Reading through the layer answers from it where
it has an entry, and from the store below otherwise.

## Main results

* `Layer.read_put`, `Layer.read_del` — reading after a change.
* `Layer.lookup_flush` — the map has what was read through the layer.
-/

/-- Pending writes and removals, kept apart. -/
structure Layer (K V : Type*) where
  puts : AList fun _ : K => V
  dels : AList fun _ : K => Unit
  disjoint : ∀ k, k ∈ puts → k ∉ dels

namespace Layer

variable {K V : Type*} [DecidableEq K]

def empty : Layer K V := ⟨∅, ∅, fun _ h => absurd h (by simp)⟩

/-- Write a value: a pending removal of the key is dropped. -/
def put (l : Layer K V) (k : K) (v : V) : Layer K V where
  puts := l.puts.insert k v
  dels := l.dels.erase k
  disjoint := by
    intro k' hk' hd
    rw [AList.mem_erase] at hd
    rcases (AList.mem_insert l.puts).mp hk' with rfl | hk'
    · exact hd.1 rfl
    · exact l.disjoint k' hk' hd.2

/-- Remove a key: a pending write to it is dropped. -/
def del (l : Layer K V) (k : K) : Layer K V where
  puts := l.puts.erase k
  dels := l.dels.insert k ()
  disjoint := by
    intro k' hk' hd
    rw [AList.mem_erase] at hk'
    rcases (AList.mem_insert l.dels).mp hd with rfl | hd
    · exact hk'.1 rfl
    · exact l.disjoint k' hk'.2 hd

/-- The value at a key where the store below has `base`. -/
def read (l : Layer K V) (base : Option V) (k : K) : Option V :=
  match l.puts.lookup k with
  | some v => some v
  | none => if k ∈ l.dels then none else base

@[simp] theorem read_empty (base : Option V) (k : K) : (empty : Layer K V).read base k = base := by
  simp [read, empty]

theorem read_put (l : Layer K V) (k : K) (v : V) (base : Option V) (k' : K) :
    (l.put k v).read base k' = if k' = k then some v else l.read base k' := by
  by_cases hk : k' = k
  · subst hk
    simp [read, put]
  · simp [read, put, AList.lookup_insert_ne hk, AList.mem_erase, hk]

theorem read_del (l : Layer K V) (k : K) (base : Option V) (k' : K) :
    (l.del k).read base k' = if k' = k then none else l.read base k' := by
  by_cases hk : k' = k
  · subst hk
    simp [read, del]
  · simp [read, del, AList.lookup_erase_ne hk, AList.mem_insert, hk]

theorem read_of_del {l : Layer K V} {k : K} (h : k ∈ l.dels) (base : Option V) :
    l.read base k = none := by
  have hp : l.puts.lookup k = none :=
    AList.lookup_eq_none.mpr fun hp => l.disjoint k hp h
  simp [read, hp, h]

/-- Reading removals first gives the same answer. -/
theorem read_eq_dels_first (l : Layer K V) (base : Option V) (k : K) :
    l.read base k =
      if k ∈ l.dels then none
      else match l.puts.lookup k with
        | some v => some v
        | none => base := by
  by_cases hd : k ∈ l.dels
  · rw [if_pos hd, read_of_del hd]
  · rw [if_neg hd, read]
    simp [hd]

/-! ### Writing to a map -/

theorem lookup_foldl_erase (k : K) : ∀ (ks : List K) (m : AList fun _ : K => V),
    (ks.foldl (fun m k => m.erase k) m).lookup k = if k ∈ ks then none else m.lookup k := by
  intro ks
  induction ks with
  | nil => intro m; simp
  | cons k' ks ih =>
    intro m
    rw [List.foldl_cons, ih]
    by_cases hk : k = k'
    · subst hk
      simp
    · simp [hk, AList.lookup_erase_ne hk]

theorem lookup_foldl_insert (k : K) : ∀ (es : List ((_ : K) × V)) (m : AList fun _ : K => V),
    es.NodupKeys → (es.foldl (fun m e => m.insert e.1 e.2) m).lookup k =
      (List.dlookup k es).or (m.lookup k) := by
  intro es
  induction es with
  | nil => intro m _; rfl
  | cons e es ih =>
    intro m hnd
    obtain ⟨hnot, hnd⟩ := List.nodupKeys_cons.mp hnd
    rw [List.foldl_cons, ih _ hnd]
    by_cases hk : k = e.1
    · subst hk
      rw [List.dlookup_eq_none.mpr hnot, List.dlookup_cons_eq, AList.lookup_insert]
      rfl
    · rw [List.dlookup_cons_ne _ _ hk, AList.lookup_insert_ne hk]

/-- Make the pending writes, then the pending removals. -/
def flush (l : Layer K V) (m : AList fun _ : K => V) : AList fun _ : K => V :=
  l.dels.keys.foldl (fun m k => m.erase k)
    (l.puts.entries.foldl (fun m e => m.insert e.1 e.2) m)

/-- The map then has what was read through the layer. -/
theorem lookup_flush (l : Layer K V) (m : AList fun _ : K => V) (k : K) :
    (l.flush m).lookup k = l.read (m.lookup k) k := by
  rw [flush, lookup_foldl_erase, lookup_foldl_insert k _ _ l.puts.nodupKeys, read_eq_dels_first]
  have hdels : k ∈ l.dels.keys ↔ k ∈ l.dels := Iff.rfl
  have hlook : List.dlookup k l.puts.entries = l.puts.lookup k := rfl
  simp only [hdels, hlook]
  split
  · rfl
  · cases l.puts.lookup k <;> rfl

end Layer
