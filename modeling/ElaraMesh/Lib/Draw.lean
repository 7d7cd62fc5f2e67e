import Mathlib.Data.List.Sort
import Mathlib.Order.Lattice

/-!
# The first entries of a list by a key

A list is sorted by a key and cut off.  If no two entries have the same key, the result does not
depend on the order of the list, and an entry is among the first `k` if fewer than `k` entries
have a smaller key.  So an entry that is among the first stays there when its key gets smaller
and the others are left as they are.

## Main results

* `Draw.sortBy_congr` — the order of the list does not matter.
* `Draw.mem_take_sortBy` — who is among the first.
* `Draw.mem_take_sortBy_map` — who is there stays there with a smaller key.
-/

namespace Draw

variable {α κ : Type*} {key : α → κ} {l l' : List α}

/-- No two entries have the same key. -/
def Keyed (key : α → κ) (l : List α) : Prop := (l.map key).Nodup

theorem Keyed.perm (h : Keyed key l) (hperm : l.Perm l') : Keyed key l' :=
  (hperm.map key).nodup_iff.mp h

theorem Keyed.filter (h : Keyed key l) (p : α → Bool) : Keyed key (l.filter p) :=
  ((List.filter_sublist (p := p)).map key).nodup h

variable [LinearOrder κ]

def sortBy (key : α → κ) (l : List α) : List α := l.insertionSort fun a b => key a ≤ key b

theorem perm_sortBy (key : α → κ) (l : List α) : (sortBy key l).Perm l :=
  List.perm_insertionSort _ _

@[simp] theorem mem_sortBy {a : α} : a ∈ sortBy key l ↔ a ∈ l := (perm_sortBy key l).mem_iff

theorem pairwise_sortBy (key : α → κ) (l : List α) :
    (sortBy key l).Pairwise fun a b => key a ≤ key b := by
  have : Std.Total fun a b : α => key a ≤ key b := ⟨fun a b => le_total (key a) (key b)⟩
  have : IsTrans α fun a b => key a ≤ key b := ⟨fun _ _ _ => le_trans⟩
  exact List.pairwise_insertionSort _ _

/-- Sorted by different keys, the keys increase. -/
theorem Keyed.pairwise_lt (h : Keyed key l) :
    (sortBy key l).Pairwise fun a b => key a < key b := by
  have hne : (sortBy key l).Pairwise fun a b => key a ≠ key b :=
    List.pairwise_map.mp (h.perm (perm_sortBy key l).symm)
  exact ((pairwise_sortBy key l).and hne).imp fun h => lt_of_le_of_ne h.1 h.2

/-- The order of the list does not matter. -/
theorem sortBy_congr (h : Keyed key l) (hperm : l.Perm l') : sortBy key l = sortBy key l' := by
  have hsorted : (sortBy key l).Perm (sortBy key l') :=
    (perm_sortBy key l).trans (hperm.trans (perm_sortBy key l').symm)
  refine hsorted.eq_of_pairwise (fun a b _ _ hab hba => ?_) h.pairwise_lt
    (h.perm hperm).pairwise_lt
  exact absurd hab (lt_asymm hba)

/-- The first entries of a list whose keys increase. -/
theorem mem_take_of_pairwise_lt (hl : l.Pairwise fun a b => key a < key b) (k : ℕ) (x : α) :
    x ∈ l.take k ↔ x ∈ l ∧ (l.filter fun y => key y < key x).length < k := by
  induction l generalizing k with
  | nil => simp
  | cons a l ih =>
    obtain ⟨hhead, hrest⟩ := List.pairwise_cons.mp hl
    cases k with
    | zero => simp
    | succ k =>
      rw [List.take_succ_cons, List.mem_cons, List.mem_cons, ih hrest]
      by_cases hx : x ∈ l
      · -- the head is before every entry of the rest
        rw [List.filter_cons_of_pos (by simpa using hhead x hx), List.length_cons]
        have hne : x ≠ a := fun heq => lt_irrefl _ (heq ▸ hhead x hx)
        simp [hx, hne]
      · -- nothing is before the head
        constructor
        · rintro (rfl | h)
          · have hnone : (x :: l).filter (fun y => key y < key x) = [] := by
              rw [List.filter_eq_nil_iff]
              intro y hy
              rcases List.mem_cons.mp hy with rfl | hy
              · simp
              · simpa using (hhead y hy).le
            simp [hnone]
          · exact absurd h.1 hx
        · rintro ⟨rfl | h, -⟩
          · exact .inl rfl
          · exact absurd h hx

/-- An entry is among the first `k` if fewer than `k` entries have a smaller key. -/
theorem mem_take_sortBy (h : Keyed key l) (k : ℕ) (x : α) :
    x ∈ (sortBy key l).take k ↔ x ∈ l ∧ (l.filter fun y => key y < key x).length < k := by
  rw [mem_take_of_pairwise_lt h.pairwise_lt, mem_sortBy,
    ((perm_sortBy key l).filter _).length_eq]

/-- An entry that is among the first stays there when its key gets smaller and the other entries
are left alone. -/
theorem mem_take_sortBy_map {f : α → α} {x : α} {k : ℕ} (h : Keyed key l)
    (h' : Keyed key (l.map f)) (hx : x ∈ (sortBy key l).take k) (hself : key (f x) ≤ key x)
    (hothers : ∀ y ∈ l, y ≠ x → f y = y) : f x ∈ (sortBy key (l.map f)).take k := by
  obtain ⟨hmem, hlt⟩ := (mem_take_sortBy h k x).mp hx
  refine (mem_take_sortBy h' k _).mpr ⟨List.mem_map_of_mem hmem, lt_of_le_of_lt ?_ hlt⟩
  rw [List.filter_map, List.length_map, ← List.countP_eq_length_filter,
    ← List.countP_eq_length_filter]
  refine List.countP_mono_left fun y hy hbefore => ?_
  simp only [Function.comp_apply, decide_eq_true_eq] at hbefore ⊢
  have hne : y ≠ x := by
    rintro rfl
    exact lt_irrefl _ hbefore
  rw [hothers y hy hne] at hbefore
  exact lt_of_lt_of_le hbefore hself

end Draw
