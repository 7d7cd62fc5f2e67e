import ElaraMesh.Lib.BitTrie
import ElaraMesh.Lib.Merkle

/-!
# Repairing a stored hash tree

A store keeps the hash of every position of a hash tree.  When a leaf is changed, the hashes
above it are computed anew from the bottom up, and the repair stops where a hash comes out as
it was: nothing above it changes then.  The hashes beside the way of a leaf are what leads
from the leaf to the root again.

## Main results

* `HashTree.repair_eq` — after the repair the store keeps the changed tree.
* `HashTree.climb_wayUp` — the way of an occupied position leads to the root;
  `HashTree.climbPairs_wayUp` — what is combined on it.
* `HashTree.hash_tree`, `HashTree.mem_leaves_tree` — the hash and the leaves of the binary tree.
-/

namespace HashTree

variable {H : Type} [DecidableEq H] {T : HashTree H} {f g V : List Bool → H}
  {π x : List Bool} {d : ℕ}

/-! ### Repair -/

/-- Hash anew what is above the first `d` bits of a leaf, from the bottom up, and stop where a
hash is as it was. -/
def repair (T : HashTree H) (x : List Bool) : ℕ → (List Bool → H) → List Bool → H
  | 0, V => V
  | d + 1, V =>
    let a := T.combine (V (x.take d ++ [false])) (V (x.take d ++ [true]))
    if a = V (x.take d) then V else T.repair x d (Function.update V (x.take d) a)

/-- The store keeps the tree over `g`, except that above the first `d` bits of `x` it is still
the tree over `f`. -/
def Patched (T : HashTree H) (f g : List Bool → H) (x : List Bool) (d : ℕ)
    (V : List Bool → H) : Prop :=
  ∀ π, π.length ≤ T.depth →
    V π = if π <+: x ∧ π.length < d then T.sub f π else T.sub g π

/-- Beside the way to `x` nothing depends on the leaf `x`. -/
theorem sub_eq_of_not_prefix (hfg : ∀ y, y ≠ x → f y = g y) (hlen : π.length ≤ T.depth)
    (hπ : ¬ π <+: x) : T.sub f π = T.sub g π := by
  apply sub_congr hlen
  intro y _ hy
  exact hfg y fun hyx => hπ (hyx ▸ hy)

theorem not_prefix_sibling (hd : d < x.length) : ¬ x.take d ++ [!x.getD d false] <+: x := by
  intro h
  have hstep : x.take d ++ [x.getD d false] <+: x := take_succ_eq hd ▸ List.take_prefix (d + 1) x
  have heq := (List.prefix_of_prefix_length_le h hstep (by simp)).eq_of_length (by simp)
  simp at heq

/-- Hashes that agree on the way to `x` agree all the way above. -/
theorem sub_take_eq (hx : x.length = T.depth) (hfg : ∀ y, y ≠ x → f y = g y) :
    ∀ {d : ℕ}, d ≤ T.depth → T.sub f (x.take d) = T.sub g (x.take d) →
      ∀ j ≤ d, T.sub f (x.take j) = T.sub g (x.take j) := by
  intro d
  induction d with
  | zero =>
    intro _ h j hj
    rwa [Nat.le_zero.mp hj]
  | succ d ih =>
    intro hd h j hj
    rcases Nat.lt_or_eq_of_le hj with hlt | rfl
    · refine ih (by omega) ?_ j (by omega)
      have hdx : d < x.length := by omega
      -- the other child of the parent is beside the way
      have hchild : ∀ b, T.sub f (x.take d ++ [b]) = T.sub g (x.take d ++ [b]) := by
        intro b
        by_cases hb : b = x.getD d false
        · rw [hb, ← take_succ_eq hdx]
          exact h
        · have hsib : b = !x.getD d false := by
            cases b <;> cases hv : x.getD d false <;> simp_all
          rw [hsib]
          exact sub_eq_of_not_prefix hfg (by simp; omega) (not_prefix_sibling hdx)
      have hlen : (x.take d).length < T.depth := by simp; omega
      rw [sub_of_lt T hlen, sub_of_lt T hlen, hchild, hchild]
    · exact h

namespace Patched

theorem eq_of_prefix (h : T.Patched f g x d V) (hπ : π <+: x) (hlt : π.length < d)
    (hlen : π.length ≤ T.depth) : V π = T.sub f π := by
  rw [h π hlen, if_pos ⟨hπ, hlt⟩]

theorem eq_of_le (h : T.Patched f g x d V) (hle : d ≤ π.length) (hlen : π.length ≤ T.depth) :
    V π = T.sub g π := by
  rw [h π hlen, if_neg fun hc => absurd hc.2 (not_lt.mpr hle)]

theorem combine_eq (h : T.Patched f g x (d + 1) V) (hx : x.length = T.depth)
    (hd : d < T.depth) :
    T.combine (V (x.take d ++ [false])) (V (x.take d ++ [true])) = T.sub g (x.take d) := by
  have hlen : (x.take d).length = d := by simp; omega
  rw [h.eq_of_le (by simp [hlen]) (by simp; omega), h.eq_of_le (by simp [hlen]) (by simp; omega),
    ← sub_of_lt T (by omega)]

theorem update (h : T.Patched f g x (d + 1) V) (hx : x.length = T.depth) (hd : d < T.depth) :
    T.Patched f g x d (Function.update V (x.take d) (T.sub g (x.take d))) := by
  intro π hlen
  by_cases hπ : π = x.take d
  · rw [hπ, Function.update_self, if_neg]
    rintro ⟨-, hlt⟩
    simp at hlt
    omega
  · rw [Function.update_of_ne hπ, h π hlen]
    -- of the positions of length `d` only the one on the way changes
    have hiff : (π <+: x ∧ π.length < d + 1) ↔ (π <+: x ∧ π.length < d) := by
      refine and_congr_right fun hpre => ⟨fun hlt => ?_, fun hlt => by omega⟩
      have hne : π.length ≠ d := fun hd' => hπ (hd' ▸ List.prefix_iff_eq_take.mp hpre)
      omega
    simp only [hiff]

/-- Where a hash comes out as it was the whole store is repaired. -/
theorem done (h : T.Patched f g x (d + 1) V) (hx : x.length = T.depth) (hd : d < T.depth)
    (hfg : ∀ y, y ≠ x → f y = g y) (hsame : T.sub g (x.take d) = V (x.take d)) :
    T.Patched f g x 0 V := by
  have hlen : (x.take d).length = d := by simp; omega
  have hstop : T.sub f (x.take d) = T.sub g (x.take d) := by
    rw [hsame, h.eq_of_prefix (List.take_prefix d x) (by omega) (by omega)]
  intro π hπ
  rw [if_neg fun hc => absurd hc.2 (Nat.not_lt_zero _)]
  by_cases hpre : π <+: x ∧ π.length < d + 1
  · rw [h.eq_of_prefix hpre.1 hpre.2 hπ, List.prefix_iff_eq_take.mp hpre.1]
    exact sub_take_eq hx hfg (by omega) hstop _ (by omega)
  · rw [h π hπ, if_neg hpre]

theorem repair (hx : x.length = T.depth) (hfg : ∀ y, y ≠ x → f y = g y) :
    ∀ {d : ℕ} {V : List Bool → H}, d ≤ T.depth → T.Patched f g x d V →
      T.Patched f g x 0 (T.repair x d V) := by
  intro d
  induction d with
  | zero => exact fun _ h => h
  | succ d ih =>
    intro V hd h
    have hcombine := h.combine_eq hx hd
    unfold HashTree.repair
    rw [hcombine]
    dsimp only
    split
    · next hsame => exact h.done hx hd hfg hsame
    · exact ih (by omega) (h.update hx hd)

end Patched

/-- **A repaired store keeps the changed tree.** -/
theorem repair_eq (hx : x.length = T.depth) (hfg : ∀ y, y ≠ x → f y = g y)
    (hV : ∀ π, π.length ≤ T.depth → V π = if π = x then g x else T.sub f π)
    (hπ : π.length ≤ T.depth) : T.repair x T.depth V π = T.sub g π := by
  have hpatched : T.Patched f g x T.depth V := by
    intro ρ hρ
    rw [hV ρ hρ]
    by_cases hρx : ρ = x
    · rw [if_pos hρx, if_neg fun hc => absurd hc.2 (by rw [hρx, hx]; exact lt_irrefl _), hρx,
        sub_of_depth T hx]
    · rw [if_neg hρx]
      split
      · rfl
      · next hnot =>
        refine sub_eq_of_not_prefix hfg hρ fun hpre => hnot ⟨hpre, ?_⟩
        rw [← hx]
        exact lt_of_le_of_ne hpre.length_le fun hlen => hρx (hpre.eq_of_length hlen)
  rw [Patched.repair hx hfg le_rfl hpatched π hπ, if_neg fun hc => absurd hc.2 (Nat.not_lt_zero _)]

/-- A tree without leaves. -/
theorem hash_of_forall_empty (hf : ∀ y, f y = T.empty) : ∀ (k : ℕ) (π : List Bool),
    T.hash f k π = T.empty := by
  intro k
  induction k with
  | zero => exact fun π => hf π
  | succ k ih =>
    intro π
    rw [hash_succ, ih, ih, combine_empty]

/-! ### The way up -/

/-- The hashes beside the way of a leaf, from depth `d` up: each with whether it is on the
right. -/
def wayUp (V : List Bool → H) (x : List Bool) (d : ℕ) : List (H × Bool) :=
  (List.range d).reverse.map fun j => (V (x.take j ++ [!x.getD j false]), !x.getD j false)

omit [DecidableEq H] in
theorem wayUp_succ (V : List Bool → H) (x : List Bool) (d : ℕ) :
    wayUp V x (d + 1) =
      (V (x.take d ++ [!x.getD d false]), !x.getD d false) :: wayUp V x d := by
  simp [wayUp, List.range_succ]

/-- One level up from an occupied position. -/
theorem ascend_eq (hp : T.Proper) (hx : x.length = T.depth) (hd : d < T.depth)
    (ho : T.Occupied f (x.take (d + 1))) :
    Merkle.ascend T.node (T.sub f (x.take (d + 1)))
        (T.sub f (x.take d ++ [!x.getD d false]), !x.getD d false) =
      T.sub f (x.take d) := by
  have hne := sub_ne_empty hp ho
  have hstep : x.take (d + 1) = x.take d ++ [x.getD d false] := take_succ_eq (by omega)
  rw [hstep] at hne ⊢
  rw [sub_of_lt T (π := x.take d) (by simp; omega)]
  unfold Merkle.ascend
  cases hb : x.getD d false with
  | false =>
    rw [hb] at hne
    rw [combine_of_left T hne]
    rfl
  | true =>
    rw [hb] at hne
    rw [combine_of_right T _ hne]
    rfl

/-- **The way of an occupied position leads to the root.** -/
theorem climb_wayUp (hp : T.Proper) (hx : x.length = T.depth) :
    ∀ {d : ℕ}, d ≤ T.depth → T.Occupied f (x.take d) →
      Merkle.climb T.node (T.sub f (x.take d)) (wayUp (T.sub f) x d) = T.sub f [] := by
  intro d
  induction d with
  | zero =>
    intro _ _
    rfl
  | succ d ih =>
    intro hd ho
    have hparent : T.Occupied f (x.take d) :=
      ho.of_isPrefix (List.take_prefix_take_left (Nat.le_succ d))
    rw [wayUp_succ, ← ih (by omega) hparent, ← ascend_eq hp hx hd ho]
    rfl

/-- The pairs that are combined on the way are the children of the positions on it. -/
theorem climbPairs_wayUp (hp : T.Proper) (hx : x.length = T.depth) :
    ∀ {d : ℕ}, d ≤ T.depth → T.Occupied f (x.take d) →
      Merkle.climbPairs T.node (T.sub f (x.take d)) (wayUp (T.sub f) x d) =
        (List.range d).reverse.map fun j =>
          (T.sub f (x.take j ++ [false]), T.sub f (x.take j ++ [true])) := by
  intro d
  induction d with
  | zero =>
    intro _ _
    rfl
  | succ d ih =>
    intro hd ho
    have hparent : T.Occupied f (x.take d) :=
      ho.of_isPrefix (List.take_prefix_take_left (Nat.le_succ d))
    rw [wayUp_succ, Merkle.climbPairs, ascend_eq hp hx hd ho, ih (by omega) hparent,
      List.range_succ, List.reverse_append, List.reverse_singleton, List.singleton_append,
      List.map_cons, take_succ_eq (by omega : d < x.length)]
    cases x.getD d false <;> rfl

/-! ### The tree below a position -/

/-- The binary tree that is hashed at a position `k` levels above the leaves. -/
def tree (T : HashTree H) (f : List Bool → H) : ℕ → List Bool → Merkle.Tree H
  | 0, π => .leaf (f π)
  | k + 1, π =>
    if T.hash f k (π ++ [false]) = T.empty ∧ T.hash f k (π ++ [true]) = T.empty then
      .leaf T.empty
    else .node (T.tree f k (π ++ [false])) (T.tree f k (π ++ [true]))

theorem hash_tree (f : List Bool → H) : ∀ (k : ℕ) (π : List Bool),
    (T.tree f k π).hash T.node = T.hash f k π := by
  intro k
  induction k with
  | zero =>
    intro π
    rfl
  | succ k ih =>
    intro π
    rw [tree, hash_succ, combine]
    split
    · rfl
    · rw [Merkle.Tree.hash, ih, ih]

/-- A leaf of the tree is empty or one of the leaves below the position. -/
theorem mem_leaves_tree {a : H} : ∀ {k : ℕ} {π : List Bool}, a ∈ (T.tree f k π).leaves →
    a = T.empty ∨ ∃ y, y.length = k ∧ a = f (π ++ y) := by
  intro k
  induction k with
  | zero =>
    intro π ha
    refine Or.inr ⟨[], rfl, ?_⟩
    rw [List.append_nil]
    exact List.mem_singleton.mp ha
  | succ k ih =>
    intro π ha
    rw [tree] at ha
    split at ha
    · exact Or.inl (List.mem_singleton.mp ha)
    · have hchild : ∀ b, a ∈ (T.tree f k (π ++ [b])).leaves →
          a = T.empty ∨ ∃ y, y.length = k + 1 ∧ a = f (π ++ y) := by
        intro b hb
        refine (ih hb).imp_right ?_
        rintro ⟨y, hy, rfl⟩
        exact ⟨b :: y, by simp [hy], by simp⟩
      exact (List.mem_append.mp ha).elim (hchild false) (hchild true)

/-- The pairs that are combined in the tree are the children of positions that are not empty. -/
theorem mem_pairs_tree {p : H × H} : ∀ {k : ℕ} {π : List Bool},
    p ∈ (T.tree f k π).pairs T.node → ∃ j y, j < k ∧ y.length + j + 1 = k ∧
      p = (T.hash f j (π ++ y ++ [false]), T.hash f j (π ++ y ++ [true])) ∧
      ¬ (p.1 = T.empty ∧ p.2 = T.empty) := by
  intro k
  induction k with
  | zero =>
    intro π hp
    exact absurd hp List.not_mem_nil
  | succ k ih =>
    intro π hp
    rw [tree] at hp
    split at hp
    · exact absurd hp List.not_mem_nil
    · next hne =>
      have hchild : ∀ b, p ∈ (T.tree f k (π ++ [b])).pairs T.node →
          ∃ j y, j < k + 1 ∧ y.length + j + 1 = k + 1 ∧
            p = (T.hash f j (π ++ y ++ [false]), T.hash f j (π ++ y ++ [true])) ∧
            ¬ (p.1 = T.empty ∧ p.2 = T.empty) := by
        intro b hb
        obtain ⟨j, y, hj, hlen, hpair, hnot⟩ := ih hb
        refine ⟨j, b :: y, by omega, by simp; omega, ?_, hnot⟩
        rw [hpair]
        simp
      rw [Merkle.Tree.pairs, hash_tree, hash_tree] at hp
      rcases List.mem_cons.mp hp with rfl | hp
      · exact ⟨k, [], by omega, by simp, by simp, hne⟩
      · exact (List.mem_append.mp hp).elim (hchild false) (hchild true)

end HashTree
