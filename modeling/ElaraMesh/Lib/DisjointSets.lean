import Mathlib.Combinatorics.SimpleGraph.Connectivity.Connected
import Mathlib.Data.Finset.Card
import Mathlib.Data.Fintype.Card
import Mathlib.Data.List.GetD
import Mathlib.Data.List.NodupEquivFin
import Mathlib.Data.Nat.Find
import Mathlib.Logic.Equiv.Fin.Basic
import Mathlib.Logic.Function.Iterate
import Mathlib.Logic.Relation
import Mathlib.SetTheory.Cardinal.Finite

/-!
# Disjoint sets by parent pointers

Each index points to a parent, and a root points to itself.  `find` walks up to the
root and points every index on the way to it; `union` hangs one root below another.
A `Forest` carries the proof that every walk ends, so that the root of an index is a
function of the forest.

## Main results

* `Forest.root_find`, `Forest.root_union` — what the operations do to the roots.
* `Forest.Represents.unions` — joining the ends of links adds them to the relation.
* `Forest.Represents.countRoots_eq` — there are as many roots as classes.
* `clusterCount_eq_components` — the clusters are the connected components of that graph.
* `clusterCount_perm` — the clusters of a list do not depend on its order.
-/

namespace DisjointSets

/-- The parent of an index; what is outside of the list is its own parent. -/
def next (p : List ℕ) (i : ℕ) : ℕ := p.getD i i

/-- A root is its own parent. -/
def IsRoot (p : List ℕ) (i : ℕ) : Prop := next p i = i

def climb : ℕ → List ℕ → ℕ → ℕ
  | 0, _, i => i
  | n + 1, p, i => if next p i = i then i else climb n p (next p i)

/-- Point every index on the way up to the root. -/
def compress : ℕ → List ℕ → ℕ → ℕ → List ℕ
  | 0, p, _, _ => p
  | n + 1, p, root, curr =>
    if curr = root then p else compress n (p.set curr root) root (next p curr)

/-- The walk from `i` ends at the root `r`. -/
def Leads (p : List ℕ) (i r : ℕ) : Prop := IsRoot p r ∧ ∃ k, (next p)^[k] i = r

variable {p : List ℕ} {i r c : ℕ}

theorem lt_length_of_not_isRoot (h : ¬ IsRoot p i) : i < p.length := by
  by_contra hle
  exact h (List.getD_eq_default _ _ (Nat.le_of_not_lt hle))

theorem iterate_of_isRoot (h : IsRoot p r) (k : ℕ) : (next p)^[k] r = r :=
  Function.iterate_fixed h k

theorem Leads.of_isRoot (h : IsRoot p i) : Leads p i i := ⟨h, 0, rfl⟩

theorem Leads.step (h : Leads p (next p i) r) : Leads p i r := by
  obtain ⟨hr, k, hk⟩ := h
  exact ⟨hr, k + 1, hk⟩

theorem Leads.next (h : Leads p i r) : Leads p (next p i) r := by
  obtain ⟨hr, k, rfl⟩ := h
  refine ⟨hr, k, ?_⟩
  rw [← Function.iterate_succ_apply, Function.iterate_succ_apply']
  exact hr

theorem Leads.eq {s : ℕ} (h : Leads p i r) (h' : Leads p i s) : r = s := by
  obtain ⟨hr, k, rfl⟩ := h
  obtain ⟨hs, m, rfl⟩ := h'
  rcases Nat.le_total k m with hkm | hmk
  · obtain ⟨d, rfl⟩ := Nat.exists_eq_add_of_le' hkm
    rw [Function.iterate_add_apply, iterate_of_isRoot hr]
  · obtain ⟨d, rfl⟩ := Nat.exists_eq_add_of_le' hmk
    rw [Function.iterate_add_apply, iterate_of_isRoot hs]

/-- A walk that ends passes each index once, so its length is bounded. -/
theorem exists_steps (h : Leads p i r) :
    ∃ k ≤ p.length, (next p)^[k] i = r := by
  classical
  obtain ⟨hr, hex⟩ := h
  let k := Nat.find hex
  have hk : (next p)^[k] i = r := Nat.find_spec hex
  refine ⟨k, ?_, hk⟩
  have hbelow : ∀ a < k, ¬ IsRoot p ((next p)^[a] i) := by
    intro a ha hroot
    have hstay := iterate_of_isRoot hroot (k - a)
    rw [← Function.iterate_add_apply, Nat.sub_add_cancel ha.le, hk] at hstay
    exact Nat.find_min hex ha hstay.symm
  have hinj : Set.InjOn (fun a => (next p)^[a] i) (Finset.range k : Set ℕ) := by
    -- a repetition would skip the way to the root
    have hlt : ∀ a b, a < b → b < k → (next p)^[a] i ≠ (next p)^[b] i := by
      intro a b hab hbk heq
      have hskip : (next p)^[k - b + a] i = r := by
        rw [Function.iterate_add_apply, heq, ← Function.iterate_add_apply, Nat.sub_add_cancel hbk.le]
        exact hk
      exact Nat.find_min hex (m := k - b + a) (by omega) hskip
    intro a ha b hb heq
    have ha' : a < k := Finset.mem_range.mp ha
    have hb' : b < k := Finset.mem_range.mp hb
    rcases Nat.lt_trichotomy a b with hab | hab | hab
    · exact absurd heq (hlt a b hab hb')
    · exact hab
    · exact absurd heq.symm (hlt b a hab ha')
  have hmaps : Set.MapsTo (fun a => (next p)^[a] i) (Finset.range k : Set ℕ)
      (Finset.range p.length : Set ℕ) := by
    intro a ha
    exact Finset.mem_coe.mpr (Finset.mem_range.mpr
      (lt_length_of_not_isRoot (hbelow a (Finset.mem_range.mp ha))))
  have hcard := Finset.card_le_card_of_injOn _ hmaps hinj
  rwa [Finset.card_range, Finset.card_range] at hcard

theorem climb_eq (hr : IsRoot p r) : ∀ {n k i : ℕ}, k ≤ n →
    (next p)^[k] i = r → climb n p i = r := by
  intro n
  induction n with
  | zero =>
    intro k i hk hi
    rw [Nat.le_zero.mp hk] at hi
    exact hi
  | succ n ih =>
    intro k i hk hi
    rw [climb]
    split
    · next hroot => exact (iterate_of_isRoot hroot k).symm.trans hi
    · next hroot =>
      cases k with
      | zero =>
        rw [Function.iterate_zero, id] at hi
        rw [hi] at hroot
        exact absurd hr hroot
      | succ k => exact ih (Nat.le_of_succ_le_succ hk) hi

theorem Leads.climb_eq (h : Leads p i r) : climb p.length p i = r := by
  obtain ⟨k, hk, hi⟩ := exists_steps h
  exact DisjointSets.climb_eq h.1 hk hi

theorem next_set (hc : c < p.length) (j : ℕ) :
    next (p.set c r) j = if j = c then r else next p j := by
  unfold next
  rw [List.getD_eq_getElem?_getD, List.getD_eq_getElem?_getD, List.getElem?_set]
  by_cases hj : j = c
  · subst hj
    simp [hc]
  · rw [if_neg (Ne.symm hj), if_neg hj]

/-- Pointing `c` to a root `r` moves the walks through `c` to `r` and no other. -/
theorem Leads.set (hc : c < p.length) (hr : IsRoot p r) (hrc : r ≠ c)
    (hthrough : ∀ x, Leads p c x → x = c ∨ x = r) {j x : ℕ} (h : Leads p j x) :
    Leads (p.set c r) j (if x = c then r else x) := by
  have hr' : IsRoot (p.set c r) r := by
    rw [IsRoot, next_set hc, if_neg hrc]
    exact hr
  have hcr : Leads (p.set c r) c r := by
    refine Leads.step ?_
    rw [next_set hc, if_pos rfl]
    exact Leads.of_isRoot hr'
  obtain ⟨hx, k, hk⟩ := h
  induction k generalizing j with
  | zero =>
    rw [Function.iterate_zero, id] at hk
    subst hk
    by_cases hj : j = c
    · rw [if_pos hj, hj]
      exact hcr
    · rw [if_neg hj]
      refine Leads.of_isRoot ?_
      rw [IsRoot, next_set hc, if_neg hj]
      exact hx
  | succ k ih =>
    by_cases hj : j = c
    · have hxr : (if x = c then r else x) = r := by
        rcases hthrough x (hj ▸ ⟨hx, k + 1, hk⟩) with hxc | hxr
        · rw [if_pos hxc]
        · rw [if_neg (fun hxc => hrc (hxr.symm.trans hxc)), hxr]
      rw [hxr, hj]
      exact hcr
    · refine Leads.step ?_
      rw [next_set hc, if_neg hj]
      exact ih hk

/-- Path compression changes no root. -/
theorem Leads.compress {j x : ℕ} : ∀ {n : ℕ} {p : List ℕ} {c : ℕ}, Leads p c r → Leads p j x →
    Leads (compress n p r c) j x := by
  intro n
  induction n with
  | zero => intro p c _ h; exact h
  | succ n ih =>
    intro p c hc h
    rw [DisjointSets.compress]
    split
    · exact h
    · next hcr =>
      have hnot : ¬ IsRoot p c := fun hroot => hcr ((Leads.of_isRoot hroot).eq hc)
      have hset : ∀ {i y : ℕ}, Leads p i y → Leads (p.set c r) i y := by
        intro i y hi
        have hy : y ≠ c := by
          rintro rfl
          exact hnot hi.1
        have hmoved := hi.set (lt_length_of_not_isRoot hnot) hc.1 (Ne.symm hcr)
          (fun z hz => Or.inr (hz.eq hc))
        rwa [if_neg hy] at hmoved
      exact ih (hset hc.next) (hset h)

theorem length_compress (r : ℕ) : ∀ (n : ℕ) (p : List ℕ) (c : ℕ),
    (compress n p r c).length = p.length := by
  intro n
  induction n with
  | zero => intro p c; rfl
  | succ n ih =>
    intro p c
    rw [compress]
    split
    · rfl
    · rw [ih, List.length_set]

/-- The walk from an index of the list stays in the list. -/
def Bounded (p : List ℕ) : Prop := ∀ i < p.length, next p i < p.length

theorem Bounded.leads (hp : Bounded p) (hi : i < p.length) (h : Leads p i r) : r < p.length := by
  obtain ⟨hr, k, rfl⟩ := h
  clear hr
  induction k generalizing i with
  | zero => exact hi
  | succ k ih => exact ih (hp i hi)

theorem Bounded.set (hp : Bounded p) (hr : r < p.length) :
    Bounded (p.set c r) := by
  intro i hi
  rw [List.length_set] at hi ⊢
  by_cases hc : c < p.length
  · rw [next_set hc]
    split
    · exact hr
    · exact hp i hi
  · rw [List.set_eq_of_length_le (Nat.le_of_not_lt hc)]
    exact hp i hi

theorem Bounded.compress : ∀ {n : ℕ} {p : List ℕ} {c : ℕ}, Bounded p → r < p.length →
    Bounded (compress n p r c) := by
  intro n
  induction n with
  | zero => intro p c hp _; exact hp
  | succ n ih =>
    intro p c hp hr
    rw [DisjointSets.compress]
    split
    · exact hp
    · apply ih (hp.set hr)
      rwa [List.length_set]

/-! ### Forests -/

/-- Parent pointers on `n` indices without cycles: every walk stays inside and ends. -/
structure Forest (n : ℕ) where
  parent : List ℕ
  length_eq : parent.length = n
  bounded : Bounded parent
  grounded : ∀ i, ∃ r, Leads parent i r

namespace Forest

variable {n : ℕ} (f : Forest n)

def root (i : ℕ) : ℕ := climb f.parent.length f.parent i

theorem leads_root (i : ℕ) : Leads f.parent i (f.root i) := by
  obtain ⟨r, hr⟩ := f.grounded i
  rw [root, hr.climb_eq]
  exact hr

variable {f} in
theorem root_eq {i r : ℕ} (h : Leads f.parent i r) : f.root i = r := (f.leads_root i).eq h

theorem root_lt (i : Fin n) : f.root i < n := by
  have hlt := f.bounded.leads (i.2.trans_eq f.length_eq.symm) (f.leads_root i)
  exact hlt.trans_eq f.length_eq

theorem isRoot_range (n i : ℕ) : IsRoot (List.range n) i := by
  unfold IsRoot next
  rw [List.getD_eq_getElem?_getD]
  by_cases hi : i < n <;> simp [hi]

def singletons (n : ℕ) : Forest n where
  parent := List.range n
  length_eq := List.length_range
  bounded i hi := by
    rw [show next (List.range n) i = i from isRoot_range n i]
    exact hi
  grounded i := ⟨i, Leads.of_isRoot (isRoot_range n i)⟩

@[simp] theorem root_singletons (n i : ℕ) : (singletons n).root i = i :=
  root_eq (Leads.of_isRoot (isRoot_range n i))

/-- The root of an index, with the way to it compressed. -/
def find (i : Fin n) : ℕ × Forest n :=
  (f.root i, {
    parent := compress f.parent.length f.parent (f.root i) i
    length_eq := by rw [length_compress, f.length_eq]
    bounded := f.bounded.compress ((f.root_lt i).trans_eq f.length_eq.symm)
    grounded := fun j => ⟨f.root j, Leads.compress (f.leads_root i) (f.leads_root j)⟩ })

@[simp] theorem fst_find (i : Fin n) : (f.find i).1 = f.root i := rfl

/-- Path compression changes no root. -/
@[simp] theorem root_find (i : Fin n) (j : ℕ) : (f.find i).2.root j = f.root j :=
  root_eq (Leads.compress (f.leads_root i) (f.leads_root j))

theorem isRoot_find (i : Fin n) {r : ℕ} (hr : IsRoot f.parent r) :
    IsRoot (f.find i).2.parent r :=
  (Leads.compress (f.leads_root i) (Leads.of_isRoot hr)).1

/-- A root that leads to another one takes its walks along. -/
theorem leads_hang {ra rb : ℕ} (ha : IsRoot f.parent ra) (hb : IsRoot f.parent rb)
    (hlt : rb < n) (hne : ra ≠ rb) (j : ℕ) :
    Leads (f.parent.set rb ra) j (if f.root j = rb then ra else f.root j) :=
  (f.leads_root j).set (hlt.trans_eq f.length_eq.symm) ha hne
    (fun _ hx => Or.inl (hx.eq (Leads.of_isRoot hb)))

def hang (ra rb : ℕ) (ha : IsRoot f.parent ra) (hb : IsRoot f.parent rb) (hra : ra < n)
    (hrb : rb < n) (hne : ra ≠ rb) : Forest n where
  parent := f.parent.set rb ra
  length_eq := by rw [List.length_set, f.length_eq]
  bounded := f.bounded.set (hra.trans_eq f.length_eq.symm)
  grounded j := ⟨_, f.leads_hang ha hb hrb hne j⟩

theorem root_hang {ra rb : ℕ} (ha : IsRoot f.parent ra) (hb : IsRoot f.parent rb) (hra : ra < n)
    (hrb : rb < n) (hne : ra ≠ rb) (j : ℕ) :
    (f.hang ra rb ha hb hra hrb hne).root j = if f.root j = rb then ra else f.root j :=
  root_eq (f.leads_hang ha hb hrb hne j)

/-- Join the sets of two indices. -/
def union (a b : Fin n) : Forest n :=
  let fa := (f.find a).2
  let fb := (fa.find b).2
  if hne : f.root a ≠ fa.root b then
    fb.hang (f.root a) (fa.root b)
      (fa.isRoot_find b (f.isRoot_find a (f.leads_root a).1))
      (fa.isRoot_find b (fa.leads_root b).1)
      (f.root_lt a) (fa.root_lt b) hne
  else fb

theorem root_union (a b : Fin n) (j : ℕ) :
    (f.union a b).root j = if f.root j = f.root b then f.root a else f.root j := by
  unfold union
  dsimp only
  split
  · rw [root_hang]
    simp only [root_find]
  · next h =>
    have hab : f.root a = f.root b := by
      rw [root_find] at h
      exact Decidable.not_not.mp h
    rw [root_find, root_find, hab]
    split
    · assumption
    · rfl

/-! ### Classes of a relation -/

/-- The sets of the forest are the classes that `R` generates. -/
def Represents (R : Fin n → Fin n → Prop) : Prop :=
  ∀ i j : Fin n, f.root i = f.root j ↔ Relation.EqvGen R i j

theorem represents_singletons : (singletons n).Represents (fun _ _ => False) := by
  intro i j
  rw [root_singletons, root_singletons, Fin.val_inj]
  constructor
  · rintro rfl
    exact Relation.EqvGen.refl i
  · intro h
    induction h with
    | rel _ _ h => exact h.elim
    | refl _ => rfl
    | symm _ _ _ ih => exact ih.symm
    | trans _ _ _ _ _ ih₁ ih₂ => exact ih₁.trans ih₂

variable {f}

variable {R : Fin n → Fin n → Prop}

theorem Represents.congr {S : Fin n → Fin n → Prop} (h : f.Represents R)
    (hRS : ∀ i j, R i j ↔ S i j) : f.Represents S := by
  have heq : R = S := funext fun i => funext fun j => propext (hRS i j)
  exact heq ▸ h

/-- Joining two sets adds one link to the relation. -/
theorem Represents.union (h : f.Represents R) (a b : Fin n) :
    (f.union a b).Represents (fun i j => R i j ∨ (i = a ∧ j = b)) := by
  have hlift : ∀ {i j : Fin n}, f.root i = f.root j →
      Relation.EqvGen (fun i j => R i j ∨ (i = a ∧ j = b)) i j := fun {i j} hij =>
    Relation.EqvGen.mono (fun _ _ => Or.inl) i j ((h i j).mp hij)
  have hlink : Relation.EqvGen (fun i j => R i j ∨ (i = a ∧ j = b)) a b :=
    Relation.EqvGen.rel a b (Or.inr ⟨rfl, rfl⟩)
  intro i j
  rw [root_union, root_union]
  constructor
  · intro hij
    split at hij
    · next hi =>
      split at hij
      · next hj => exact hlift (hi.trans hj.symm)
      · exact ((hlift hi).trans _ _ _ (hlink.symm _ _)).trans _ _ _ (hlift hij)
    · split at hij
      · next hj => exact ((hlift hij).trans _ _ _ hlink).trans _ _ _ (hlift hj.symm)
      · exact hlift hij
  · intro hij
    induction hij with
    | rel i j hr =>
      rcases hr with hr | ⟨rfl, rfl⟩
      · rw [(h i j).mpr (Relation.EqvGen.rel i j hr)]
      · simp only [if_true, ite_self]
    | refl _ => rfl
    | symm _ _ _ ih => exact ih.symm
    | trans _ _ _ _ _ ih₁ ih₂ => exact ih₁.trans ih₂

/-- Join the two ends of every link. -/
def unions (links : List (Fin n × Fin n)) (f : Forest n) : Forest n :=
  links.foldl (fun f link => f.union link.1 link.2) f

theorem Represents.unions (links : List (Fin n × Fin n)) (h : f.Represents R) :
    (f.unions links).Represents (fun i j => R i j ∨ (i, j) ∈ links) := by
  induction links generalizing f R with
  | nil => exact h.congr fun i j => by simp
  | cons link links ih =>
    refine (ih (h.union link.1 link.2)).congr fun i j => ?_
    rw [List.mem_cons, or_assoc, Prod.ext_iff]

/-- The roots seen so far, with that of one more index. -/
def gather (seen : List ℕ × Forest n) (i : Fin n) : List ℕ × Forest n :=
  (seen.1.insert (seen.2.find i).1, (seen.2.find i).2)

variable (f) in
def countRoots : ℕ := ((List.finRange n).foldl gather ([], f)).1.length

theorem foldl_gather (is : List (Fin n)) (seen : List ℕ) (hseen : seen.Nodup) :
    (is.foldl gather (seen, f)).1.Nodup ∧
      ∀ r, r ∈ (is.foldl gather (seen, f)).1 ↔ r ∈ seen ∨ ∃ i ∈ is, f.root i = r := by
  induction is generalizing f seen with
  | nil => exact ⟨hseen, fun r => by simp⟩
  | cons i is ih =>
    obtain ⟨hnodup, hmem⟩ := ih (f := (f.find i).2) (seen.insert (f.root i)) hseen.insert
    refine ⟨hnodup, fun r => (hmem r).trans ?_⟩
    simp only [List.mem_insert_iff, root_find, List.exists_mem_cons_iff]
    constructor
    · rintro ((rfl | hr) | hr)
      · exact Or.inr (Or.inl rfl)
      · exact Or.inl hr
      · exact Or.inr (Or.inr hr)
    · rintro (hr | rfl | hr)
      · exact Or.inl (Or.inr hr)
      · exact Or.inl (Or.inl rfl)
      · exact Or.inr hr

theorem Represents.countRoots_eq (h : f.Represents R) :
    f.countRoots = Nat.card (Quot R) := by
  obtain ⟨hnodup, hmem⟩ := foldl_gather (f := f) (List.finRange n) [] List.nodup_nil
  let roots := ((List.finRange n).foldl gather ([], f)).1
  let rootOf : Quot R → {r // r ∈ roots} :=
    Quot.lift (fun i => ⟨f.root i, (hmem _).mpr (Or.inr ⟨i, List.mem_finRange i, rfl⟩)⟩)
      (fun i j hij => Subtype.ext ((h i j).mpr (Relation.EqvGen.rel i j hij)))
  have hbij : Function.Bijective rootOf := by
    constructor
    · rintro ⟨i⟩ ⟨j⟩ hij
      exact Quot.eqvGen_sound ((h i j).mp (congrArg Subtype.val hij))
    · rintro ⟨r, hr⟩
      obtain hr | ⟨i, _, hi⟩ := (hmem r).mp hr
      · exact absurd hr List.not_mem_nil
      · exact ⟨Quot.mk R i, Subtype.ext hi⟩
  rw [Nat.card_eq_of_bijective rootOf hbij]
  rw [← Nat.card_congr (List.Nodup.getEquiv roots hnodup), Nat.card_fin]
  rfl

theorem Represents.of_eqvGen {S : Fin n → Fin n → Prop} (h : f.Represents R)
    (hRS : ∀ i j, R i j → Relation.EqvGen S i j) (hSR : ∀ i j, S i j → Relation.EqvGen R i j) :
    f.Represents S := by
  intro i j
  rw [h i j]
  have hgen : ∀ {T U : Fin n → Fin n → Prop}, (∀ i j, T i j → Relation.EqvGen U i j) →
      ∀ {i j}, Relation.EqvGen T i j → Relation.EqvGen U i j := by
    intro T U hTU i j hij
    induction hij with
    | rel i j hT => exact hTU i j hT
    | refl i => exact Relation.EqvGen.refl i
    | symm i j _ ih => exact ih.symm _ _
    | trans i j k _ _ ih₁ ih₂ => exact ih₁.trans _ _ _ ih₂
  exact ⟨hgen hRS, hgen hSR⟩

end Forest

/-! ### Clusters of a list -/

section Clusters

variable {α : Type*}

def pairs (n : ℕ) : List (Fin n × Fin n) :=
  (List.finRange n).flatMap fun i => ((List.finRange n).filter (i < ·)).map fun j => (i, j)

@[simp] theorem mem_pairs {n : ℕ} {i j : Fin n} : (i, j) ∈ pairs n ↔ i < j := by
  simp [pairs]

/-- The pairs of indices whose elements are related. -/
def linksBy (rel : α → α → Bool) (l : List α) : List (Fin l.length × Fin l.length) :=
  (pairs l.length).filter fun p => rel (l.get p.1) (l.get p.2)

/-- The indices of a list, joined by one relation after another. -/
def linkForest (rels : List (α → α → Bool)) (l : List α) : Forest l.length :=
  rels.foldl (fun f rel => f.unions (linksBy rel l)) (Forest.singletons l.length)

/-- The number of clusters when the elements are joined by one relation after another. -/
def clusterCount (rels : List (α → α → Bool)) (l : List α) : ℕ := (linkForest rels l).countRoots

/-- The graph on the places of a list that joins two places if a relation joins what is there. -/
def linkGraph (rels : List (α → α → Bool)) (l : List α) : SimpleGraph (Fin l.length) :=
  SimpleGraph.fromRel fun i j => ∃ rel ∈ rels, rel (l.get i) (l.get j) = true

theorem represents_links (rels : List (α → α → Bool)) (l : List α)
    {f : Forest l.length} {R : Fin l.length → Fin l.length → Prop} (h : f.Represents R) :
    (rels.foldl (fun f rel => f.unions (linksBy rel l)) f).Represents
      (fun i j => R i j ∨ (i < j ∧ ∃ rel ∈ rels, rel (l.get i) (l.get j) = true)) := by
  induction rels generalizing f R with
  | nil => exact h.congr fun i j => by simp
  | cons rel rels ih =>
    refine (ih (h.unions (linksBy rel l))).congr fun i j => ?_
    simp only [linksBy, List.mem_filter, mem_pairs, List.exists_mem_cons_iff, or_assoc, and_or_left]

/-- The clusters of a list are the connected components of its places. -/
theorem clusterCount_eq_components {rels : List (α → α → Bool)}
    (hsymm : ∀ rel ∈ rels, ∀ a b, rel a b = rel b a) (l : List α) :
    clusterCount rels l = Nat.card (linkGraph rels l).ConnectedComponent := by
  have hrep := represents_links rels l (Forest.represents_singletons (n := l.length))
  have hadj : ∀ i j, (linkGraph rels l).Adj i j →
      Relation.EqvGen (fun i j => False ∨ (i < j ∧ ∃ rel ∈ rels,
        rel (l.get i) (l.get j) = true)) i j := by
    intro i j hij
    obtain ⟨hne, hlink⟩ := (SimpleGraph.fromRel_adj _ i j).mp hij
    -- in the order of the places, in which the forest joins them
    have hboth : ∃ rel ∈ rels, rel (l.get i) (l.get j) = true ∧ rel (l.get j) (l.get i) = true := by
      rcases hlink with ⟨rel, hmem, hrel⟩ | ⟨rel, hmem, hrel⟩
      · exact ⟨rel, hmem, hrel, hsymm rel hmem _ _ ▸ hrel⟩
      · exact ⟨rel, hmem, hsymm rel hmem _ _ ▸ hrel, hrel⟩
    obtain ⟨rel, hmem, hrel, hback⟩ := hboth
    rcases lt_or_gt_of_ne hne with hlt | hgt
    · exact Relation.EqvGen.rel i j (Or.inr ⟨hlt, rel, hmem, hrel⟩)
    · exact (Relation.EqvGen.rel j i (Or.inr ⟨hgt, rel, hmem, hback⟩)).symm _ _
  have hreach : (linkForest rels l).Represents (linkGraph rels l).Reachable := by
    refine hrep.of_eqvGen (fun i j hij => ?_) (fun i j hij => ?_)
    · rcases hij with hfalse | ⟨hlt, hrel⟩
      · exact hfalse.elim
      · refine Relation.EqvGen.rel i j (SimpleGraph.Adj.reachable ?_)
        exact (SimpleGraph.fromRel_adj _ i j).mpr ⟨hlt.ne, Or.inl hrel⟩
    · rw [SimpleGraph.reachable_iff_reflTransGen] at hij
      induction hij with
      | refl => exact Relation.EqvGen.refl i
      | tail _ hlast ih => exact ih.trans _ _ _ (hadj _ _ hlast)
  exact hreach.countRoots_eq

/-- A list in another order has its elements at other places. -/
theorem exists_places_of_perm {l₁ l₂ : List α} (h : l₁.Perm l₂) :
    ∃ e : Fin l₁.length ≃ Fin l₂.length, ∀ i, l₂.get (e i) = l₁.get i := by
  induction h with
  | nil => exact ⟨Equiv.refl _, fun i => rfl⟩
  | cons a _ ih =>
    obtain ⟨e, he⟩ := ih
    refine ⟨(finSuccEquiv _).trans (e.optionCongr.trans (finSuccEquiv _).symm), fun i => ?_⟩
    cases i using Fin.cases with
    | zero => simp
    | succ i => simpa using he i
  | swap a b l =>
    refine ⟨Equiv.swap (0 : Fin (l.length + 2)) 1, fun i => ?_⟩
    cases i using Fin.cases with
    | zero => simp
    | succ i =>
      cases i using Fin.cases with
      | zero => simp
      | succ i =>
        have hone : i.succ.succ ≠ (1 : Fin (l.length + 2)) := fun h =>
          Fin.succ_ne_zero i (Fin.succ_injective _ h)
        rw [Equiv.swap_apply_of_ne_of_ne (Fin.succ_ne_zero _) hone]
        rfl
  | trans _ _ ih₁ ih₂ =>
    obtain ⟨e, he⟩ := ih₁
    obtain ⟨e', he'⟩ := ih₂
    exact ⟨e.trans e', fun i => (he' (e i)).trans (he i)⟩

/-- The number of clusters does not depend on the order of the list. -/
theorem clusterCount_perm {rels : List (α → α → Bool)}
    (hsymm : ∀ rel ∈ rels, ∀ a b, rel a b = rel b a) {l₁ l₂ : List α} (hperm : l₁.Perm l₂) :
    clusterCount rels l₁ = clusterCount rels l₂ := by
  obtain ⟨e, he⟩ := exists_places_of_perm hperm
  rw [clusterCount_eq_components hsymm, clusterCount_eq_components hsymm]
  refine Nat.card_congr (SimpleGraph.Iso.connectedComponentEquiv ⟨e, fun {i j} => ?_⟩)
  simp only [linkGraph, SimpleGraph.fromRel_adj, he, e.injective.ne_iff]

end Clusters

end DisjointSets
