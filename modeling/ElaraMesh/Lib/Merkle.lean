import Mathlib.Data.List.Induction
import Mathlib.Data.Set.Function

/-!
# Merkle trees over lists

A list is folded layer by layer: neighbours are combined, and the last entry of an odd layer
goes up unchanged.  Folding is the same for every way to combine, so that it may be done with
trees first; what the layers keep is then a fact about the leaves of trees.

## Main results

* `exists_tree` — a list that is folded up is hashed by a tree with its entries as leaves.
* `climb_path` — the path of an entry leads to the root; `path_eq_nil_iff` says when it is
  empty.
* `Binding.tree_eq`, `Binding.mem_leaves` — trees with one hash are equal, and what a path
  leads from to the hash of a tree is one of its leaves; `mem_leaves_of_climb` for a path of
  another recipe.
-/

namespace Merkle

variable {α β : Type}

/-! ### Trees -/

/-- A binary tree with values at its leaves. -/
inductive Tree (α : Type) where
  | leaf (a : α) : Tree α
  | node (left right : Tree α) : Tree α

namespace Tree

/-- The value of a tree whose nodes combine the values of their children. -/
def hash (combine : α → α → α) : Tree α → α
  | leaf a => a
  | node left right => combine (left.hash combine) (right.hash combine)

def leaves : Tree α → List α
  | leaf a => [a]
  | node left right => left.leaves ++ right.leaves

def pairs (combine : α → α → α) : Tree α → List (α × α)
  | leaf _ => []
  | node left right =>
    (left.hash combine, right.hash combine) :: (left.pairs combine ++ right.pairs combine)

end Tree

/-! ### Layers -/

/-- Combine neighbours; an entry without one goes up unchanged. -/
def pairUp (combine : α → α → α) : List α → List α
  | [] => []
  | [a] => [a]
  | a :: b :: l => combine a b :: pairUp combine l

theorem length_pairUp (combine : α → α → α) (l : List α) :
    (pairUp combine l).length = (l.length + 1) / 2 := by
  induction l using pairUp.induct with
  | case1 => simp [pairUp]
  | case2 a => simp [pairUp]
  | case3 a b l ih =>
    rw [pairUp, List.length_cons, ih, List.length_cons, List.length_cons]
    omega

/-- The pairs of neighbours of a layer. -/
def pairsOf : List α → List (α × α)
  | a :: b :: l => (a, b) :: pairsOf l
  | _ => []

/-- Go up from layer to layer while there is more than one entry. -/
def foldUp (layer : List α → List α) : ℕ → List α → List α
  | 0, l => l
  | n + 1, l => if 1 < l.length then foldUp layer n (layer l) else l

/-- The pairs that are combined on the way. -/
def foldPairs (layer : List α → List α) (layerPairs : List α → List (α × α)) :
    ℕ → List α → List (α × α)
  | 0, _ => []
  | n + 1, l =>
    if 1 < l.length then layerPairs l ++ foldPairs layer layerPairs n (layer l) else []

variable {layer : List α → List α} {n pos : ℕ} {l : List α} {a : α}

/-- Enough layers leave one entry. -/
theorem length_foldUp (hlayer : ∀ l, (layer l).length = (l.length + 1) / 2) (hl : l ≠ [])
    (hn : l.length ≤ n + 1) : (foldUp layer n l).length = 1 := by
  induction n generalizing l with
  | zero =>
    have hpos := List.length_pos_iff.mpr hl
    exact Nat.le_antisymm hn hpos
  | succ n ih =>
    have hpos := List.length_pos_iff.mpr hl
    rw [foldUp]
    split
    · have hlength := hlayer l
      refine ih (fun hnil => ?_) (by omega)
      rw [hnil, List.length_nil] at hlength
      omega
    · omega

theorem foldUp_invariant {P : List α → Prop}
    (hlayer : ∀ l, P l → P (layer l)) (n : ℕ) (hl : P l) : P (foldUp layer n l) := by
  induction n generalizing l with
  | zero => exact hl
  | succ n ih =>
    rw [foldUp]
    split
    · exact ih (hlayer l hl)
    · exact hl

/-- Folding commutes with a map that respects the layers. -/
theorem map_foldUp {f : α → β} {layer' : List β → List β}
    (hmap : ∀ l, (layer l).map f = layer' (l.map f)) (n : ℕ) (l : List α) :
    (foldUp layer n l).map f = foldUp layer' n (l.map f) := by
  induction n generalizing l with
  | zero => rfl
  | succ n ih =>
    rw [foldUp, foldUp, List.length_map]
    split
    · rw [ih, hmap]
    · rfl

theorem map_pairUp (combine : α → α → α) (l : List (Tree α)) :
    (pairUp Tree.node l).map (Tree.hash combine) = pairUp combine (l.map (Tree.hash combine)) := by
  induction l using pairUp.induct with
  | case1 => rfl
  | case2 t => rfl
  | case3 t t' l ih =>
    rw [pairUp, List.map_cons, ih]
    rfl

theorem pairs_pairUp (combine : α → α → α) (l : List (Tree α)) {p : α × α}
    (hp : p ∈ (pairUp Tree.node l).flatMap (Tree.pairs combine)) :
    p ∈ l.flatMap (Tree.pairs combine) ∨ p ∈ pairsOf (l.map (Tree.hash combine)) := by
  induction l using pairUp.induct with
  | case1 => exact Or.inl hp
  | case2 t => exact Or.inl hp
  | case3 t t' l ih =>
    rw [pairUp, List.flatMap_cons, List.mem_append] at hp
    rw [List.flatMap_cons, List.flatMap_cons, List.mem_append, List.mem_append]
    rcases hp with hp | hp
    · rcases List.mem_cons.mp hp with rfl | hp
      · exact Or.inr List.mem_cons_self
      · exact (List.mem_append.mp hp).elim (fun h => Or.inl (Or.inl h))
          fun h => Or.inl (Or.inr (Or.inl h))
    · exact (ih hp).imp (fun h => Or.inr (Or.inr h)) (List.mem_cons_of_mem _)

theorem leaves_pairUp (l : List (Tree α)) :
    (pairUp Tree.node l).flatMap Tree.leaves = l.flatMap Tree.leaves := by
  induction l using pairUp.induct with
  | case1 => rfl
  | case2 t => rfl
  | case3 t t' l ih =>
    rw [pairUp, List.flatMap_cons, List.flatMap_cons, List.flatMap_cons, ih, ← List.append_assoc]
    rfl

theorem leaves_map_leaf (l : List α) : (l.map Tree.leaf).flatMap Tree.leaves = l := by
  induction l with
  | nil => rfl
  | cons a l ih =>
    rw [List.map_cons, List.flatMap_cons, ih]
    rfl

theorem hash_map_leaf (combine : α → α → α) (l : List α) :
    (l.map Tree.leaf).map (Tree.hash combine) = l := by
  rw [List.map_map]
  exact List.map_id l

theorem pairs_map_leaf (combine : α → α → α) (l : List α) :
    (l.map Tree.leaf).flatMap (Tree.pairs combine) = [] := by
  induction l with
  | nil => rfl
  | cons a l ih => exact ih

/-- A layer of trees whose values are a layer of values. -/
structure Layered (combine : α → α → α) (layer : List α → List α)
    (layerPairs : List α → List (α × α)) (layerTrees : List (Tree α) → List (Tree α)) : Prop where
  length_eq : ∀ l, (layerTrees l).length = (l.length + 1) / 2
  map_eq : ∀ l, (layerTrees l).map (Tree.hash combine) = layer (l.map (Tree.hash combine))
  pairs : ∀ l, ∀ p ∈ (layerTrees l).flatMap (Tree.pairs combine),
    p ∈ l.flatMap (Tree.pairs combine) ∨ p ∈ layerPairs (l.map (Tree.hash combine))

namespace Layered

variable {combine : α → α → α} {layer : List α → List α} {layerPairs : List α → List (α × α)}
  {layerTrees : List (Tree α) → List (Tree α)}

theorem pairs_foldUp (h : Layered combine layer layerPairs layerTrees) (n : ℕ)
    (ts : List (Tree α)) {p : α × α}
    (hp : p ∈ (foldUp layerTrees n ts).flatMap (Tree.pairs combine)) :
    p ∈ ts.flatMap (Tree.pairs combine) ∨
      p ∈ foldPairs layer layerPairs n (ts.map (Tree.hash combine)) := by
  induction n generalizing ts with
  | zero => exact Or.inl hp
  | succ n ih =>
    rw [foldUp] at hp
    rw [foldPairs, List.length_map]
    split at hp
    · next hlt =>
      rw [if_pos hlt, List.mem_append, ← h.map_eq, ← or_assoc]
      exact (ih _ hp).imp_left (h.pairs ts p)
    · exact Or.inl hp

/-- What is folded up is the value of a tree, of which what the layers keep can be said. -/
theorem exists_tree (h : Layered combine layer layerPairs layerTrees)
    {P : List (Tree α) → Prop} (hP : ∀ ts, P ts → P (layerTrees ts)) {l : List α} (hl : l ≠ [])
    (hleaves : P (l.map Tree.leaf)) {n : ℕ} (hn : l.length ≤ n + 1) :
    ∃ t : Tree α, P [t] ∧ foldUp layer n l = [t.hash combine] ∧
      ∀ p ∈ t.pairs combine, p ∈ foldPairs layer layerPairs n l := by
  have hnil : l.map Tree.leaf ≠ [] := mt List.map_eq_nil_iff.mp hl
  have hlength : (foldUp layerTrees n (l.map Tree.leaf)).length = 1 :=
    length_foldUp h.length_eq hnil (by rwa [List.length_map])
  obtain ⟨t, ht⟩ := List.length_eq_one_iff.mp hlength
  have hkept := foldUp_invariant hP n hleaves
  have hmap := map_foldUp h.map_eq n (l.map Tree.leaf)
  have hpairs := fun p => h.pairs_foldUp n (l.map Tree.leaf) (p := p)
  rw [ht] at hkept hmap hpairs
  rw [hash_map_leaf] at hmap hpairs
  rw [pairs_map_leaf, List.flatMap_singleton] at hpairs
  exact ⟨t, hkept, hmap.symm, fun p hp => (hpairs p hp).resolve_left List.not_mem_nil⟩

end Layered

theorem layered_pairUp (combine : α → α → α) :
    Layered combine (pairUp combine) pairsOf (pairUp Tree.node) :=
  ⟨length_pairUp _, map_pairUp combine, fun l _ => pairs_pairUp combine l⟩

/-- A list that is folded up is hashed by a tree whose leaves are its entries, in order. -/
theorem exists_tree (combine : α → α → α) (hl : l ≠ [])
    (hn : l.length ≤ n + 1) : ∃ t : Tree α, t.leaves = l ∧
      foldUp (pairUp combine) n l = [t.hash combine] ∧
      ∀ p ∈ t.pairs combine, p ∈ foldPairs (pairUp combine) pairsOf n l := by
  obtain ⟨t, hleaves, hfold⟩ := (layered_pairUp combine).exists_tree
    (P := fun ts => ts.flatMap Tree.leaves = l) (fun ts h => (leaves_pairUp ts).trans h) hl
    (leaves_map_leaf l) hn
  rw [List.flatMap_singleton] at hleaves
  exact ⟨t, hleaves, hfold⟩

/-! ### Padded layers -/

/-- Repeat the last entry of a list of odd length. -/
def pad (l : List α) : List α := if l.length % 2 = 1 then l ++ l.getLast?.toList else l

theorem map_pad (f : α → β) (l : List α) : (pad l).map f = pad (l.map f) := by
  unfold pad
  rw [List.length_map, List.getLast?_map]
  split
  · rw [List.map_append, Option.toList_map]
  · rfl

theorem mem_pad : a ∈ pad l ↔ a ∈ l := by
  unfold pad
  split
  · rw [List.mem_append, Option.mem_toList]
    exact or_iff_left_of_imp List.mem_of_getLast?
  · exact Iff.rfl

theorem length_pad (l : List α) : (pad l).length = l.length + l.length % 2 := by
  unfold pad
  split
  · next hodd =>
    have hne : l ≠ [] := by
      rintro rfl
      exact absurd hodd Nat.zero_ne_one
    rw [List.getLast?_eq_some_getLast hne, Option.toList_some, List.length_append, hodd]
    rfl
  · omega

theorem pad_cons_cons (a b : α) (l : List α) : pad (a :: b :: l) = a :: b :: pad l := by
  have hparity : (a :: b :: l).length % 2 = l.length % 2 := by
    rw [List.length_cons, List.length_cons]
    omega
  unfold pad
  rw [hparity]
  split
  · next hodd =>
    cases l with
    | nil => exact absurd hodd Nat.zero_ne_one
    | cons c l => rfl
  · rfl

theorem getElem?_pad (h : l[pos]? = some a) :
    (pad l)[pos]? = some a := by
  unfold pad
  split
  · rw [List.getElem?_append_left (List.getElem?_eq_some_iff.mp h).1, h]
  · exact h

theorem layered_pad (combine : α → α → α) :
    Layered combine (fun l => pairUp combine (pad l)) (fun l => pairsOf (pad l))
      (fun ts => pairUp Tree.node (pad ts)) := by
  refine ⟨fun l => ?_, fun l => ?_, fun l p hp => ?_⟩
  · rw [length_pairUp, length_pad]
    omega
  · rw [map_pairUp, map_pad]
  · rw [← map_pad]
    refine (pairs_pairUp combine (pad l) hp).imp_left fun h => ?_
    obtain ⟨t, ht, hp⟩ := List.mem_flatMap.mp h
    exact List.mem_flatMap.mpr ⟨t, mem_pad.mp ht, hp⟩

/-- With padding the leaves are among the entries. -/
theorem exists_padded_tree (combine : α → α → α) (hl : l ≠ [])
    (hn : l.length ≤ n + 1) : ∃ t : Tree α, (∀ a ∈ t.leaves, a ∈ l) ∧
      foldUp (fun l => pairUp combine (pad l)) n l = [t.hash combine] ∧
      ∀ p ∈ t.pairs combine,
        p ∈ foldPairs (fun l => pairUp combine (pad l)) (fun l => pairsOf (pad l)) n l := by
  have hstep : ∀ ts : List (Tree α), (∀ a ∈ ts.flatMap Tree.leaves, a ∈ l) →
      ∀ a ∈ (pairUp Tree.node (pad ts)).flatMap Tree.leaves, a ∈ l := by
    intro ts h a ha
    rw [leaves_pairUp] at ha
    obtain ⟨t, ht, ha⟩ := List.mem_flatMap.mp ha
    exact h a (List.mem_flatMap.mpr ⟨t, mem_pad.mp ht, ha⟩)
  obtain ⟨t, hleaves, hfold⟩ := (layered_pad combine).exists_tree
    (P := fun ts => ∀ a ∈ ts.flatMap Tree.leaves, a ∈ l) hstep hl
    (fun a ha => leaves_map_leaf l ▸ ha) hn
  rw [List.flatMap_singleton] at hleaves
  exact ⟨t, hleaves, hfold⟩

/-! ### Paths -/

/-- The neighbour of an entry, and whether it is on its right. -/
def siblings (l : List α) (pos : ℕ) : List (α × Bool) :=
  if pos % 2 = 0 then (l[pos + 1]?.map fun a => (a, true)).toList
  else (l[pos - 1]?.map fun a => (a, false)).toList

/-- The neighbours on the way up from a position. -/
def path (layer : List α → List α) : ℕ → List α → ℕ → List (α × Bool)
  | 0, _, _ => []
  | n + 1, l, pos =>
    if 1 < l.length then siblings l pos ++ path layer n (layer l) (pos / 2) else []

def ascend (combine : α → α → α) (a : α) (s : α × Bool) : α :=
  if s.2 then combine a s.1 else combine s.1 a

/-- The way up along a path. -/
def climb (combine : α → α → α) (a : α) (p : List (α × Bool)) : α := p.foldl (ascend combine) a

theorem climb_append (combine : α → α → α) (a : α) (p q : List (α × Bool)) :
    climb combine a (p ++ q) = climb combine (climb combine a p) q := List.foldl_append ..

theorem siblings_add_two (a b : α) (l : List α) (pos : ℕ) :
    siblings (a :: b :: l) (pos + 2) = siblings l pos := by
  unfold siblings
  rw [Nat.add_mod_right]
  split
  · rfl
  · next hodd =>
    obtain ⟨k, rfl⟩ : ∃ k, pos = k + 1 := Nat.exists_eq_add_one_of_ne_zero (by
      rintro rfl
      exact hodd rfl)
    rfl

theorem getElem?_pairUp (combine : α → α → α) (h : l[pos]? = some a) :
    (pairUp combine l)[pos / 2]? = some (climb combine a (siblings l pos)) := by
  induction l using pairUp.induct generalizing pos with
  | case1 => cases h
  | case2 b =>
    cases pos with
    | zero => exact h
    | succ pos => cases h
  | case3 b c l ih =>
    match pos with
    | 0 =>
      cases h
      rfl
    | 1 =>
      cases h
      rfl
    | pos + 2 =>
      rw [siblings_add_two, pairUp, Nat.add_div_right pos Nat.two_pos]
      exact ih h

/-- In a padded layer every entry has a neighbour. -/
theorem siblings_pad (hpos : pos < l.length) (d : α) :
    siblings (pad l) pos = [((pad l).getD
      (min (if pos % 2 = 0 then pos + 1 else pos - 1) ((pad l).length - 1)) d,
        decide (pos % 2 = 0))] := by
  have hlength := length_pad l
  unfold siblings
  split
  · next heven =>
    rw [decide_eq_true heven, Nat.min_eq_left (by omega),
      List.getD_eq_getElem?_getD, List.getElem?_eq_getElem (by omega)]
    rfl
  · next hodd =>
    rw [decide_eq_false hodd, Nat.min_eq_left (by omega),
      List.getD_eq_getElem?_getD, List.getElem?_eq_getElem (by omega)]
    rfl

theorem eq_singleton (h : l[pos]? = some a) (hle : l.length ≤ 1) :
    l = [a] := by
  obtain ⟨hpos, ha⟩ := List.getElem?_eq_some_iff.mp h
  obtain ⟨b, rfl⟩ := List.length_eq_one_iff.mp (Nat.le_antisymm hle (Nat.zero_lt_of_lt hpos))
  rw [← ha, List.getElem_singleton]

/-- The path of an entry leads to the root. -/
theorem climb_path (combine : α → α → α) (h : l[pos]? = some a) (hn : l.length ≤ n + 1) :
    foldUp (pairUp combine) n l = [climb combine a (path (pairUp combine) n l pos)] := by
  induction n generalizing l pos a with
  | zero => exact eq_singleton h hn
  | succ n ih =>
    rw [foldUp, path]
    split
    · next hlt =>
      have hlength := length_pairUp combine l
      rw [climb_append]
      exact ih (getElem?_pairUp combine h) (by omega)
    · next hle => exact eq_singleton h (not_lt.mp hle)

theorem siblings_eq_nil_iff (hpos : pos < l.length) :
    siblings l pos = [] ↔ pos % 2 = 0 ∧ l.length = pos + 1 := by
  unfold siblings
  split
  · next heven =>
    rw [and_iff_right heven, Option.toList_eq_nil_iff, Option.map_eq_none_iff,
      List.getElem?_eq_none_iff]
    omega
  · next hodd =>
    have hprev : pos - 1 < l.length := by omega
    rw [List.getElem?_eq_getElem hprev]
    exact iff_of_false (List.cons_ne_nil _ _) fun h => hodd h.1

/-- Only the path of a single entry is empty. -/
theorem path_eq_nil_iff (combine : α → α → α) (hpos : pos < l.length) (hn : l.length ≤ n + 1) :
    path (pairUp combine) n l pos = [] ↔ l.length = 1 := by
  induction n generalizing l pos with
  | zero => exact iff_of_true rfl (by omega)
  | succ n ih =>
    rw [path]
    split
    · next hlt =>
      have hlength := length_pairUp combine l
      have hrest : path (pairUp combine) n (pairUp combine l) (pos / 2) = [] ↔
        (pairUp combine l).length = 1 := ih (by omega) (by omega)
      refine iff_of_false (fun hnil => ?_) (Nat.ne_of_gt hlt)
      obtain ⟨hsiblings, hpath⟩ := List.append_eq_nil_iff.mp hnil
      -- the entry is the last of an odd layer, of which the next has another entry
      have hlast := (siblings_eq_nil_iff hpos).mp hsiblings
      have hone := hrest.mp hpath
      omega
    · exact iff_of_true rfl (by omega)

/-! ### What a root binds -/

/-- The pairs that are combined along a path. -/
def climbPairs (combine : α → α → α) (a : α) : List (α × Bool) → List (α × α)
  | [] => []
  | s :: p => (if s.2 then (a, s.1) else (s.1, a)) :: climbPairs combine (ascend combine a s) p

theorem climbPairs_append (combine : α → α → α) (a : α) (p q : List (α × Bool)) :
    climbPairs combine a (p ++ q) =
      climbPairs combine a p ++ climbPairs combine (climb combine a p) q := by
  induction p generalizing a with
  | nil => rfl
  | cons s p ih => exact congrArg (_ :: ·) (ih _)

/-- A path of one recipe that leads to the hash of a tree of another starts from a leaf of the
tree, if no two pairs of the two are combined to the same and none to what may be a leaf. -/
theorem mem_leaves_of_climb {combine combine' : α → α → α} {pairs pairs' : Set (α × α)}
    {ground : Set α}
    (hinj : ∀ q ∈ pairs, ∀ q' ∈ pairs', combine q.1 q.2 = combine' q'.1 q'.2 → q = q')
    (hapart : ∀ q ∈ pairs, combine q.1 q.2 ∉ ground)
    (hapart' : ∀ q ∈ pairs', combine' q.1 q.2 ∉ ground) (ha : a ∈ ground)
    {p : List (α × Bool)} (hp : ∀ q ∈ climbPairs combine a p, q ∈ pairs) {t : Tree α}
    (ht : ∀ q ∈ t.pairs combine', q ∈ pairs') (hleaves : ∀ b ∈ t.leaves, b ∈ ground)
    (heq : climb combine a p = t.hash combine') : a ∈ t.leaves := by
  -- down from the root, so by induction on the end of the path
  induction p using List.reverseRecOn generalizing t with
  | nil =>
    cases t with
    | leaf b => exact List.mem_singleton.mpr heq
    | node l r =>
      refine absurd ha ?_
      rw [show a = combine' (l.hash combine') (r.hash combine') from heq]
      exact hapart' _ (ht _ List.mem_cons_self)
  | append_singleton p s ih =>
    rw [climbPairs_append] at hp
    have hlast := hp _ (List.mem_append_right _ List.mem_cons_self)
    have hbefore : ∀ q ∈ climbPairs combine a p, q ∈ pairs := fun q hq =>
      hp q (List.mem_append_left _ hq)
    have hcombine : (fun q : α × α => combine q.1 q.2)
        (if s.2 then (climb combine a p, s.1) else (s.1, climb combine a p)) =
          t.hash combine' := by
      rw [← heq, climb_append]
      show _ = ascend combine (climb combine a p) s
      unfold ascend
      split <;> rfl
    cases t with
    | leaf b =>
      refine absurd (hleaves b List.mem_cons_self) ?_
      rw [show b = _ from hcombine.symm]
      exact hapart _ hlast
    | node l r =>
      have hpair := hinj _ hlast _ (ht _ List.mem_cons_self) hcombine
      have hl := fun heq => ih hbefore
        (fun q hq => ht q (List.mem_cons_of_mem _ (List.mem_append_left _ hq)))
        (fun b hb => hleaves b (List.mem_append_left _ hb)) (t := l) heq
      have hr := fun heq => ih hbefore
        (fun q hq => ht q (List.mem_cons_of_mem _ (List.mem_append_right _ hq)))
        (fun b hb => hleaves b (List.mem_append_right _ hb)) (t := r) heq
      split at hpair
      · exact List.mem_append_left _ (hl (Prod.mk.inj hpair).1)
      · exact List.mem_append_right _ (hr (Prod.mk.inj hpair).2)

/-- The pairs are combined differently, and never to what may be a leaf. -/
structure Binding (combine : α → α → α) (pairs : Set (α × α)) (ground : Set α) : Prop where
  injOn : Set.InjOn (fun p : α × α => combine p.1 p.2) pairs
  apart : ∀ p ∈ pairs, combine p.1 p.2 ∉ ground

namespace Binding

variable {combine : α → α → α} {pairs : Set (α × α)} {ground : Set α}

/-- Trees with one hash are equal. -/
theorem tree_eq (h : Binding combine pairs ground) {t t' : Tree α}
    (ht : ∀ p ∈ t.pairs combine, p ∈ pairs) (ht' : ∀ p ∈ t'.pairs combine, p ∈ pairs)
    (hleaves : ∀ a ∈ t.leaves, a ∈ ground) (hleaves' : ∀ a ∈ t'.leaves, a ∈ ground)
    (heq : t.hash combine = t'.hash combine) : t = t' := by
  induction t generalizing t' with
  | leaf a =>
    cases t' with
    | leaf b => exact congrArg Tree.leaf heq
    | node l r =>
      refine absurd (hleaves a List.mem_cons_self) ?_
      rw [show a = combine (l.hash combine) (r.hash combine) from heq]
      exact h.apart _ (ht' _ List.mem_cons_self)
  | node l r ihl ihr =>
    cases t' with
    | leaf b =>
      refine absurd (hleaves' b List.mem_cons_self) ?_
      rw [show b = combine (l.hash combine) (r.hash combine) from heq.symm]
      exact h.apart _ (ht _ List.mem_cons_self)
    | node l' r' =>
      have hpair := h.injOn (ht _ List.mem_cons_self) (ht' _ List.mem_cons_self) heq
      obtain ⟨hl, hr⟩ := Prod.mk.inj hpair
      have hleft := ihl (fun p hp => ht p (List.mem_cons_of_mem _ (List.mem_append_left _ hp)))
        (fun p hp => ht' p (List.mem_cons_of_mem _ (List.mem_append_left _ hp)))
        (fun a ha => hleaves a (List.mem_append_left _ ha))
        (fun a ha => hleaves' a (List.mem_append_left _ ha)) hl
      have hright := ihr (fun p hp => ht p (List.mem_cons_of_mem _ (List.mem_append_right _ hp)))
        (fun p hp => ht' p (List.mem_cons_of_mem _ (List.mem_append_right _ hp)))
        (fun a ha => hleaves a (List.mem_append_right _ ha))
        (fun a ha => hleaves' a (List.mem_append_right _ ha)) hr
      rw [hleft, hright]

/-- What a path leads from to the hash of a tree is a leaf of the tree. -/
theorem mem_leaves (h : Binding combine pairs ground) {a : α} (ha : a ∈ ground)
    {p : List (α × Bool)} (hp : ∀ q ∈ climbPairs combine a p, q ∈ pairs) {t : Tree α}
    (ht : ∀ q ∈ t.pairs combine, q ∈ pairs) (hleaves : ∀ b ∈ t.leaves, b ∈ ground)
    (heq : climb combine a p = t.hash combine) : a ∈ t.leaves :=
  mem_leaves_of_climb (fun _ hq _ hq' => h.injOn hq hq') h.apart h.apart ha hp ht hleaves heq

end Binding

end Merkle
