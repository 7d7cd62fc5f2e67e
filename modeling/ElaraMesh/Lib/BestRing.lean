import Mathlib.Data.Finset.Max
import Mathlib.Data.Finset.Card
import Mathlib.Data.List.Infix
import Mathlib.Tactic.Common

/-!
# Rings of the best entries

A bounded ring keeps one entry for each slot, the one of the least hash, and of these the `n`
entries of the highest keys.  When it is brought back to that form after every single entry, it
forgets: the winner of a slot may be gone when a rival of the same slot arrives with a higher
key.  So a ring is not a function of the set of the entries it was given.  It is one exactly
when no entry of a slot that the whole set drops has a key above the least key that is kept.

## Main results

* `Ranking.fill_eq_keep` — in a settled set every order of arrival ends with what the whole set
  keeps.
* `Ranking.exists_fill_ne` — in a set that is not settled two orders end differently.
-/

open Finset

/-- How entries compete: within a slot by hash, between slots by key. -/
structure Ranking (α κ η ρ : Type) where
  slot : α → κ
  hash : α → η
  key : α → ρ
  slot_eq_of_key : ∀ x y, key x = key y → slot x = slot y

namespace Ranking

variable {α κ η ρ : Type}

section Definitions

variable [DecidableEq α] [DecidableEq κ] [LinearOrder η] [LinearOrder ρ]
variable (R : Ranking α κ η ρ) (n : ℕ)

/-- The entries of the least hash in their slots. -/
def best (s : Finset α) : Finset α := {x ∈ s | ∀ y ∈ s, R.slot y = R.slot x → R.hash x ≤ R.hash y}

/-- The entries that fewer than `n` others outrank. -/
def top (s : Finset α) : Finset α := {x ∈ s | #{y ∈ s | R.key x < R.key y} < n}

/-- What a ring of `n` places keeps of a set. -/
def keep (s : Finset α) : Finset α := R.top n (R.best s)

def push (ring : Finset α) (x : α) : Finset α := R.keep n (insert x ring)

/-- One entry after another. -/
def fill (ring : Finset α) (l : List α) : Finset α := l.foldl (R.push n) ring

/-- No two entries have one hash. -/
def Distinct (s : Finset α) : Prop := ∀ x ∈ s, ∀ y ∈ s, R.hash x = R.hash y → x = y

/-- An entry of a slot that is dropped lies below all that is kept. -/
def Settled (s : Finset α) : Prop :=
  ∀ x ∈ s, (∃ w ∈ R.keep n s, R.slot w = R.slot x) ∨ ∀ w ∈ R.keep n s, R.key x < R.key w

end Definitions

variable {R : Ranking α κ η ρ} {n : ℕ}

/-! ### Winners of slots -/

theorem Distinct.subset {s t : Finset α} (hs : R.Distinct s) (h : t ⊆ s) : R.Distinct t :=
  fun x hx y hy => hs x (h hx) y (h hy)

section Winners

variable [DecidableEq κ] [LinearOrder η]

theorem best_subset (s : Finset α) : R.best s ⊆ s := filter_subset _ s

variable {s : Finset α} {x : α}

/-- A winner stays one in a smaller set. -/
theorem mem_best_of_subset {t : Finset α} (h : t ⊆ s) (hx : x ∈ R.best s)
    (hxt : x ∈ t) : x ∈ R.best t :=
  mem_filter.mpr ⟨hxt, fun y hy => (mem_filter.mp hx).2 y (h hy)⟩

theorem eq_of_best (hs : R.Distinct s) {y : α} (hx : x ∈ R.best s)
    (hy : y ∈ R.best s) (h : R.slot x = R.slot y) : x = y := by
  obtain ⟨hxs, hxmin⟩ := mem_filter.mp hx
  obtain ⟨hys, hymin⟩ := mem_filter.mp hy
  exact hs x hxs y hys (le_antisymm (hxmin y hys h.symm) (hymin x hxs h))

theorem exists_best (hx : x ∈ s) : ∃ w ∈ R.best s, R.slot w = R.slot x := by
  obtain ⟨w, hw, hmin⟩ := exists_min_image {y ∈ s | R.slot y = R.slot x} R.hash
    ⟨x, mem_filter.mpr ⟨hx, rfl⟩⟩
  obtain ⟨hws, hslot⟩ := mem_filter.mp hw
  exact ⟨w, mem_filter.mpr ⟨hws, fun y hy h => hmin y (mem_filter.mpr ⟨hy, h.trans hslot⟩)⟩, hslot⟩

theorem card_best (hs : R.Distinct s) : #(R.best s) = #(s.image R.slot) := by
  rw [← card_image_of_injOn fun x hx y hy h => eq_of_best hs hx hy h]
  refine congrArg card (ext fun k => ?_)
  simp only [mem_image]
  constructor
  · rintro ⟨x, hx, rfl⟩
    exact ⟨x, best_subset s hx, rfl⟩
  · rintro ⟨x, hx, rfl⟩
    exact exists_best hx

theorem key_injOn_best (hs : R.Distinct s) : Set.InjOn R.key (R.best s) :=
  fun x hx y hy h => eq_of_best hs hx hy (R.slot_eq_of_key x y h)

end Winners

/-! ### Highest keys -/

section Highest

variable [LinearOrder ρ]

theorem top_subset (s : Finset α) : R.top n s ⊆ s := filter_subset _ s

variable {s : Finset α}

/-- A set that fits is kept whole. -/
theorem top_eq_self (h : #s ≤ n) : R.top n s = s := by
  refine filter_true_of_mem fun x hx => ?_
  have hlt : {y ∈ s | R.key x < R.key y} ⊂ s :=
    filter_ssubset.mpr ⟨x, hx, lt_irrefl _⟩
  exact (card_lt_card hlt).trans_le h

/-- As many entries are kept as there is room for. -/
theorem card_top [DecidableEq α] (hkey : Set.InjOn R.key s) : #(R.top n s) = min n #s := by
  induction hc : #s generalizing s with
  | zero =>
    rw [card_eq_zero.mp hc, Nat.min_zero]
    rfl
  | succ m ih =>
    by_cases hfit : #s ≤ n
    · rw [top_eq_self hfit, hc]
      omega
    -- the entry of the least key is outranked by all others
    · obtain ⟨z, hz, hmin⟩ := exists_min_image s R.key (card_pos.mp (hc ▸ Nat.succ_pos m))
      have hcount : ∀ x ∈ s.erase z, #{y ∈ s | R.key x < R.key y} =
          #{y ∈ s.erase z | R.key x < R.key y} := by
        intro x hx
        refine congrArg card (ext fun y => ?_)
        simp only [mem_filter, mem_erase]
        refine ⟨fun h => ⟨⟨?_, h.1⟩, h.2⟩, fun h => ⟨h.1.2, h.2⟩⟩
        rintro rfl
        exact absurd h.2 (not_lt.mpr (hmin x (mem_of_mem_erase hx)))
      have hzout : ¬ #{y ∈ s | R.key z < R.key y} < n := by
        have hall : s.erase z ⊆ {y ∈ s | R.key z < R.key y} := fun y hy =>
          mem_filter.mpr ⟨mem_of_mem_erase hy, lt_of_le_of_ne (hmin y (mem_of_mem_erase hy))
            fun h => ne_of_mem_erase hy (hkey hz (mem_of_mem_erase hy) h).symm⟩
        have := card_le_card hall
        rw [card_erase_of_mem hz] at this
        omega
      have herase : R.top n s = R.top n (s.erase z) := by
        ext x
        unfold top
        simp only [mem_filter]
        constructor
        · rintro ⟨hx, hlt⟩
          have hxz : x ∈ s.erase z := mem_erase.mpr ⟨fun h => hzout (h ▸ hlt), hx⟩
          exact ⟨hxz, hcount x hxz ▸ hlt⟩
        · rintro ⟨hx, hlt⟩
          exact ⟨mem_of_mem_erase hx, (hcount x hx).symm ▸ hlt⟩
      have hcard : #(s.erase z) = m := by rw [card_erase_of_mem hz, hc, Nat.add_sub_cancel]
      rw [herase, ih (hkey.mono (erase_subset z s)) hcard]
      omega

/-- What is not kept lies below what is. -/
theorem key_le_of_top {x w : α} (hx : x ∈ s)
    (hxout : x ∉ R.top n s) (hw : w ∈ R.top n s) : R.key x ≤ R.key w := by
  obtain ⟨hws, hwin⟩ := mem_filter.mp hw
  have hout : ¬ #{y ∈ s | R.key x < R.key y} < n := fun h => hxout (mem_filter.mpr ⟨hx, h⟩)
  refine le_of_not_gt fun hgt => hout (lt_of_le_of_lt (card_le_card fun y hy => ?_) hwin)
  obtain ⟨hys, hlt⟩ := mem_filter.mp hy
  exact mem_filter.mpr ⟨hys, hgt.trans hlt⟩

end Highest

/-! ### What a ring keeps -/

section Kept

variable [DecidableEq κ] [LinearOrder η] [LinearOrder ρ]

theorem keep_subset_best (s : Finset α) : R.keep n s ⊆ R.best s := top_subset _

theorem keep_subset (s : Finset α) : R.keep n s ⊆ s := (top_subset _).trans (best_subset s)

variable {s : Finset α}

theorem card_keep [DecidableEq α] (hs : R.Distinct s) : #(R.keep n s) = min n #(s.image R.slot) := by
  rw [keep, card_top (key_injOn_best hs), card_best hs]

/-- A winner that is dropped lies below all that is kept. -/
theorem key_lt_of_keep (hs : R.Distinct s) {x w : α} (hx : x ∈ R.best s)
    (hxout : x ∉ R.keep n s) (hw : w ∈ R.keep n s) : R.key x < R.key w := by
  refine lt_of_le_of_ne (key_le_of_top hx hxout hw) fun h => hxout ?_
  rwa [key_injOn_best hs hx (keep_subset_best s hw) h]

/-- The entries whose slots are kept. -/
def held (R : Ranking α κ η ρ) (n : ℕ) (s : Finset α) : Finset α :=
  {x ∈ s | ∃ w ∈ R.keep n s, R.slot w = R.slot x}

theorem held_subset (s : Finset α) : R.held n s ⊆ s := filter_subset _ s

theorem keep_subset_held (s : Finset α) : R.keep n s ⊆ R.held n s := fun w hw =>
  mem_filter.mpr ⟨keep_subset s hw, w, hw, rfl⟩

/-- What may compete with a set of winners: an entry of one of their slots, or one that lies
below all of them. -/
structure Dominated (R : Ranking α κ η ρ) (n : ℕ) (winners s : Finset α) : Prop where
  distinct : R.Distinct s
  best : winners ⊆ R.best s
  card_le : winners.card ≤ n
  below : ∀ x ∈ s, (∃ w ∈ winners, R.slot w = R.slot x) ∨ ∀ w ∈ winners, R.key x < R.key w

/-- A winner is outranked by winners of other slots only, so it stays. -/
theorem Dominated.mem_keep {winners t : Finset α} (h : Dominated R n winners s) (ht : t ⊆ s)
    {w : α} (hw : w ∈ winners) (hwt : w ∈ t) : w ∈ R.keep n t := by
  have hwbest : w ∈ R.best t := mem_best_of_subset ht (h.best hw) hwt
  refine mem_filter.mpr ⟨hwbest, ?_⟩
  have hdistinct := h.distinct.subset ht
  have hslots : ({y ∈ R.best t | R.key w < R.key y}).image R.slot ⊆
      (winners.image R.slot).erase (R.slot w) := by
    intro k hk
    obtain ⟨y, hy, rfl⟩ := mem_image.mp hk
    obtain ⟨hybest, hlt⟩ := mem_filter.mp hy
    refine mem_erase.mpr ⟨fun heq => ?_, ?_⟩
    · rw [eq_of_best hdistinct hybest hwbest heq] at hlt
      exact lt_irrefl _ hlt
    · rcases h.below y (ht (best_subset t hybest)) with ⟨v, hv, hslot⟩ | hbelow
      · exact mem_image.mpr ⟨v, hv, hslot⟩
      · exact absurd hlt (hbelow w hw).asymm
  have hinj : Set.InjOn R.slot ({y ∈ R.best t | R.key w < R.key y} : Finset α) :=
    fun x hx y hy => eq_of_best hdistinct (mem_filter.mp hx).1 (mem_filter.mp hy).1
  have hw' : R.slot w ∈ winners.image R.slot := mem_image_of_mem _ hw
  calc #{y ∈ R.best t | R.key w < R.key y}
      = #(({y ∈ R.best t | R.key w < R.key y}).image R.slot) := (card_image_of_injOn hinj).symm
    _ ≤ #((winners.image R.slot).erase (R.slot w)) := card_le_card hslots
    _ < #(winners.image R.slot) := card_lt_card (erase_ssubset hw')
    _ ≤ winners.card := card_image_le
    _ ≤ n := h.card_le

end Kept

/-! ### One entry after another -/

section Filling

variable [DecidableEq α] [DecidableEq κ] [LinearOrder η] [LinearOrder ρ]

theorem push_subset (ring : Finset α) (x : α) : R.push n ring x ⊆ insert x ring := keep_subset _

theorem fill_cons (ring : Finset α) (x : α) (l : List α) :
    R.fill n ring (x :: l) = R.fill n (R.push n ring x) l := rfl

theorem fill_append (ring : Finset α) (l l' : List α) :
    R.fill n ring (l ++ l') = R.fill n (R.fill n ring l) l' := List.foldl_append

variable {s ring : Finset α} {l : List α} {x : α}

theorem fill_subset (hring : ring ⊆ s) (hl : ∀ x ∈ l, x ∈ s) :
    R.fill n ring l ⊆ s := by
  induction l generalizing ring with
  | nil => exact hring
  | cons x l ih =>
    refine ih ?_ fun y hy => hl y (List.mem_cons_of_mem x hy)
    exact (push_subset ring x).trans (insert_subset (hl x List.mem_cons_self) hring)

/-- An entry that is gone comes back only when it is given again. -/
theorem notMem_fill (hring : x ∉ ring) (hl : x ∉ l) :
    x ∉ R.fill n ring l := by
  induction l generalizing ring with
  | nil => exact hring
  | cons y l ih =>
    rw [List.mem_cons, not_or] at hl
    refine ih (fun h => ?_) hl.2
    rcases mem_insert.mp (push_subset ring y h) with h | h
    · exact hl.1 h
    · exact hring h

/-- A ring that came from an entry has one entry for each slot and room for all. -/
theorem card_push_le (hs : R.Distinct s) (hring : ring ⊆ s)
    (hx : x ∈ s) : #(R.push n ring x) ≤ min n #(s.image R.slot) := by
  have hsub : insert x ring ⊆ s := insert_subset hx hring
  rw [push, card_keep (hs.subset hsub)]
  exact min_le_min_left n (card_le_card (image_subset_image hsub))

theorem card_fill_le (hs : R.Distinct s) (hring : ring ⊆ s)
    (hcard : ring.card ≤ min n (s.image R.slot).card) (hl : ∀ x ∈ l, x ∈ s) :
    #(R.fill n ring l) ≤ min n #(s.image R.slot) := by
  induction l generalizing ring with
  | nil => exact hcard
  | cons x l ih =>
    have hx := hl x List.mem_cons_self
    exact ih ((push_subset ring x).trans (insert_subset hx hring)) (card_push_le hs hring hx)
      fun y hy => hl y (List.mem_cons_of_mem x hy)

/-! ### Settled sets -/

/-- **A winner that was given stays to the end.** -/
theorem Dominated.mem_fill {winners : Finset α} (h : Dominated R n winners s)
    (hring : ring ⊆ s) (hl : ∀ x ∈ l, x ∈ s) {w : α} (hw : w ∈ winners)
    (hgiven : w ∈ ring ∨ w ∈ l) : w ∈ R.fill n ring l := by
  induction l generalizing ring with
  | nil => exact hgiven.resolve_right List.not_mem_nil
  | cons x l ih =>
    have hsub : insert x ring ⊆ s := insert_subset (hl x List.mem_cons_self) hring
    refine ih ((push_subset ring x).trans hsub) (fun y hy => hl y (List.mem_cons_of_mem x hy)) ?_
    rcases hgiven with hmem | hmem
    · exact .inl (h.mem_keep hsub hw (mem_insert_of_mem hmem))
    · rcases List.mem_cons.mp hmem with rfl | hmem
      · exact .inl (h.mem_keep hsub hw (mem_insert_self w ring))
      · exact .inr hmem

theorem card_keep_le (hs : R.Distinct s) : #(R.keep n s) ≤ n :=
  (card_keep hs).trans_le (min_le_left _ _)

/-- **In a settled set every order of arrival ends with what the whole set keeps.** -/
theorem fill_eq_keep (hs : R.Distinct s) (hsettled : R.Settled n s)
    (hl : ∀ x, x ∈ l ↔ x ∈ s) : R.fill n ∅ l = R.keep n s := by
  have hdom : Dominated R n (R.keep n s) s := ⟨hs, keep_subset_best s, card_keep_le hs, hsettled⟩
  have hsub : R.keep n s ⊆ R.fill n ∅ l := fun w hw =>
    hdom.mem_fill (empty_subset s) (fun x => (hl x).mp) hw (.inr ((hl w).mpr (keep_subset s hw)))
  refine (eq_of_subset_of_card_le hsub ?_).symm
  rw [card_keep hs]
  exact card_fill_le hs (empty_subset s) (Nat.zero_le _) fun x => (hl x).mp

/-! ### Sets that are not settled -/

/-- A slot is dropped only when the ring is full. -/
theorem card_keep_of_dropped (hs : R.Distinct s) (hx : x ∈ s)
    (hout : ∀ w ∈ R.keep n s, R.slot w ≠ R.slot x) : #(R.keep n s) = n := by
  by_contra hne
  have hcard := card_keep (n := n) hs
  have hfit : #(R.best s) ≤ n := by
    rw [card_best hs]
    omega
  obtain ⟨w, hw, hslot⟩ := exists_best (R := R) hx
  refine hout w ?_ hslot
  rw [keep, top_eq_self hfit]
  exact hw

/-- A full ring makes room for an entry of a new slot: the entry of the least key goes. -/
theorem notMem_push_of_lt (hs : R.Distinct s) {m : α} (hx : x ∈ s)
    (hout : ∀ w ∈ R.keep n s, R.slot w ≠ R.slot x) (hm : m ∈ R.keep n s)
    (hmin : ∀ w ∈ R.keep n s, R.key m ≤ R.key w) (hlt : R.key m < R.key x) :
    m ∉ R.push n (R.keep n s) x := by
  intro hmem
  have hsub : insert x (R.keep n s) ⊆ s := insert_subset hx (keep_subset s)
  have habove : insert x ((R.keep n s).erase m) ⊆
      {y ∈ R.best (insert x (R.keep n s)) | R.key m < R.key y} := by
    intro y hy
    rcases mem_insert.mp hy with rfl | hy
    · refine mem_filter.mpr ⟨mem_filter.mpr ⟨mem_insert_self _ _, fun z hz hslot => ?_⟩, hlt⟩
      rcases mem_insert.mp hz with rfl | hz
      · exact le_rfl
      · exact absurd hslot (hout z hz)
    · obtain ⟨hne, hy⟩ := mem_erase.mp hy
      refine mem_filter.mpr ⟨mem_best_of_subset hsub (keep_subset_best s hy)
        (mem_insert_of_mem hy), lt_of_le_of_ne (hmin y hy) fun h => hne ?_⟩
      exact (key_injOn_best hs (keep_subset_best s hm) (keep_subset_best s hy) h).symm
  have hnew : x ∉ (R.keep n s).erase m := fun h => hout x (mem_of_mem_erase h) rfl
  have hcard := card_le_card habove
  rw [card_insert_of_notMem hnew, card_erase_of_mem hm, card_keep_of_dropped hs hx hout] at hcard
  have hpos : 0 < #(R.keep n s) := card_pos.mpr ⟨m, hm⟩
  have hcount := (mem_filter.mp hmem).2
  rw [card_keep_of_dropped hs hx hout] at hpos
  omega

/-- Once the winners of their slots were given, no rival is left. -/
theorem slot_ne_of_mem_fill (hs : R.Distinct s) (hring : ring ⊆ s)
    (hl : ∀ b ∈ l, b ∈ R.best s) {y : α} (hy : y ∈ R.fill n ring l)
    (hloser : y ∉ R.best s) : ∀ b ∈ l, R.slot b ≠ R.slot y := by
  induction l generalizing ring with
  | nil => exact fun b hb => absurd hb List.not_mem_nil
  | cons a l ih =>
    have ha := hl a List.mem_cons_self
    have hsub : insert a ring ⊆ s := insert_subset (best_subset s ha) hring
    have hrest : ∀ b ∈ l, b ∈ R.best s := fun b hb => hl b (List.mem_cons_of_mem a hb)
    rw [fill_cons] at hy
    intro b hb
    rcases List.mem_cons.mp hb with rfl | hb
    · have hpushed : y ∈ R.push n ring b := by
        by_contra hgone
        exact notMem_fill hgone (fun h => hloser (hrest y h)) hy
      have hybest := keep_subset_best _ hpushed
      have hbbest : b ∈ R.best (insert b ring) :=
        mem_best_of_subset hsub ha (mem_insert_self b ring)
      intro hslot
      exact hloser (eq_of_best (hs.subset hsub) hbbest hybest hslot ▸ ha)
    · exact ih ((push_subset ring a).trans hsub) hrest hy b hb

end Filling

/-! ### Two orders -/

section Orders

variable [DecidableEq α] [DecidableEq κ] [LinearOrder η] [LinearOrder ρ]
variable (R n)

/-- The entries whose slots are dropped. -/
def dropped (s : Finset α) : Finset α := s \ R.held n s

/-- First what belongs to the slots that are kept, then one entry of another slot, then the
rest. -/
noncomputable def rivalLast (s : Finset α) (x : α) : List α :=
  (R.held n s).toList ++ x :: ((R.dropped n s).erase x).toList

/-- First the rivals in the slots that are dropped, then the winners of these slots, then what
belongs to the slots that are kept. -/
noncomputable def rivalsFirst (s : Finset α) : List α :=
  (R.dropped n s \ R.best s).toList ++ (R.dropped n s ∩ R.best s).toList ++ (R.held n s).toList

variable {R n}

variable {s : Finset α} {x : α}

theorem mem_dropped :
    x ∈ R.dropped n s ↔ x ∈ s ∧ ∀ w ∈ R.keep n s, R.slot w ≠ R.slot x := by
  unfold dropped held
  simp only [mem_sdiff, mem_filter, not_and, not_exists]
  exact ⟨fun h => ⟨h.1, fun w hw => h.2 h.1 w hw⟩, fun h => ⟨h.1, fun _ w hw => h.2 w hw⟩⟩

theorem mem_held_or_dropped :
    x ∈ R.held n s ∨ x ∈ R.dropped n s ↔ x ∈ s := by
  rw [dropped, mem_sdiff]
  refine ⟨fun h => h.elim (fun h => held_subset s h) And.left, fun h => ?_⟩
  by_cases hx : x ∈ R.held n s
  · exact .inl hx
  · exact .inr ⟨h, hx⟩

theorem mem_rivalLast (hx : x ∈ R.dropped n s) (y : α) :
    y ∈ R.rivalLast n s x ↔ y ∈ s := by
  unfold rivalLast
  rw [← mem_held_or_dropped (R := R) (n := n)]
  simp only [List.mem_append, List.mem_cons, mem_toList, mem_erase]
  refine or_congr_right ⟨?_, fun h => ?_⟩
  · rintro (rfl | h)
    · exact hx
    · exact h.2
  · by_cases hy : y = x
    · exact .inl hy
    · exact .inr ⟨hy, h⟩

theorem nodup_rivalLast (hx : x ∈ R.dropped n s) :
    (R.rivalLast n s x).Nodup := by
  refine List.Nodup.append (nodup_toList _) ?_ ?_
  · exact List.nodup_cons.mpr ⟨fun h => notMem_erase x _ (mem_toList.mp h), nodup_toList _⟩
  · intro y hheld hy
    have hdrop : y ∈ R.dropped n s := by
      rcases List.mem_cons.mp hy with rfl | hy
      · exact hx
      · exact mem_of_mem_erase (mem_toList.mp hy)
    exact (mem_sdiff.mp hdrop).2 (mem_toList.mp hheld)

theorem mem_rivalsFirst (y : α) : y ∈ R.rivalsFirst n s ↔ y ∈ s := by
  unfold rivalsFirst
  rw [← mem_held_or_dropped (R := R) (n := n)]
  simp only [List.mem_append, mem_toList, mem_sdiff, mem_inter]
  tauto

theorem nodup_rivalsFirst (s : Finset α) : (R.rivalsFirst n s).Nodup := by
  refine List.Nodup.append (List.Nodup.append (nodup_toList _) (nodup_toList _) ?_)
    (nodup_toList _) ?_
  · intro y hloser hwinner
    exact (mem_sdiff.mp (mem_toList.mp hloser)).2 (mem_inter.mp (mem_toList.mp hwinner)).2
  · intro y hy hheld
    have hdrop : y ∈ R.dropped n s := by
      rcases List.mem_append.mp hy with hy | hy
      · exact (mem_sdiff.mp (mem_toList.mp hy)).1
      · exact (mem_inter.mp (mem_toList.mp hy)).1
    exact (mem_sdiff.mp hdrop).2 (mem_toList.mp hheld)

/-- What belongs to the slots that are kept leaves them with their winners. -/
theorem fill_held (hs : R.Distinct s) (hx : x ∈ R.dropped n s) :
    R.fill n ∅ (R.held n s).toList = R.keep n s := by
  obtain ⟨hxs, hout⟩ := mem_dropped.mp hx
  have hdom : Dominated R n (R.keep n s) (R.held n s) :=
    { distinct := hs.subset (held_subset s)
      best := fun w hw => mem_best_of_subset (held_subset s) (keep_subset_best s hw)
        (keep_subset_held s hw)
      card_le := card_keep_le hs
      below := fun y hy => .inl (mem_filter.mp hy).2 }
  have hmem : ∀ y ∈ (R.held n s).toList, y ∈ R.held n s := fun y => mem_toList.mp
  refine (eq_of_subset_of_card_le (fun w hw => hdom.mem_fill (empty_subset _) hmem hw
    (.inr (mem_toList.mpr (keep_subset_held s hw)))) ?_).symm
  rw [card_keep_of_dropped hs hxs hout]
  exact (card_fill_le hdom.distinct (empty_subset _) (Nat.zero_le _) hmem).trans (min_le_left _ _)

/-- When the rivals come first and then the winners, only winners are left. -/
theorem fill_dropped_subset (hs : R.Distinct s) :
    R.fill n ∅ ((R.dropped n s \ R.best s).toList ++ (R.dropped n s ∩ R.best s).toList) ⊆
      R.dropped n s ∩ R.best s := by
  intro y hy
  have hsub : R.dropped n s ⊆ s := fun z hz => (mem_dropped.mp hz).1
  have hydrop : y ∈ R.dropped n s := by
    refine fill_subset (empty_subset _) (fun z hz => ?_) hy
    rcases List.mem_append.mp hz with hz | hz
    · exact (mem_sdiff.mp (mem_toList.mp hz)).1
    · exact (mem_inter.mp (mem_toList.mp hz)).1
  refine mem_inter.mpr ⟨hydrop, ?_⟩
  by_contra hloser
  rw [fill_append] at hy
  obtain ⟨w, hw, hslot⟩ := exists_best (R := R) (hsub hydrop)
  have hwdrop : w ∈ R.dropped n s := mem_dropped.mpr ⟨best_subset s hw, fun v hv h =>
    (mem_dropped.mp hydrop).2 v hv (h.trans hslot)⟩
  refine slot_ne_of_mem_fill hs (fill_subset (empty_subset _) fun z hz => ?_)
    (fun b hb => (mem_inter.mp (mem_toList.mp hb)).2) hy hloser w
    (mem_toList.mpr (mem_inter.mpr ⟨hwdrop, hw⟩)) hslot
  exact hsub (mem_sdiff.mp (mem_toList.mp hz)).1

/-- The winners that are kept stay when they come last. -/
theorem keep_subset_fill_rivalsFirst (hs : R.Distinct s) :
    R.keep n s ⊆ R.fill n ∅ (R.rivalsFirst n s) := by
  intro w hw
  rw [rivalsFirst, fill_append]
  have hearly := fill_dropped_subset (n := n) hs
  have hdom : Dominated R n (R.keep n s) (R.dropped n s ∩ R.best s ∪ R.held n s) := by
    have hsub : R.dropped n s ∩ R.best s ∪ R.held n s ⊆ s :=
      union_subset (inter_subset_right.trans (best_subset s)) (held_subset s)
    refine ⟨hs.subset hsub, fun v hv => mem_best_of_subset hsub (keep_subset_best s hv)
      (mem_union_right _ (keep_subset_held s hv)), card_keep_le hs, fun y hy => ?_⟩
    rcases mem_union.mp hy with hy | hy
    · obtain ⟨hydrop, hybest⟩ := mem_inter.mp hy
      refine .inr fun v hv => key_lt_of_keep hs hybest (fun hkept => ?_) hv
      exact (mem_dropped.mp hydrop).2 y hkept rfl
    · exact .inl (mem_filter.mp hy).2
  refine hdom.mem_fill (hearly.trans subset_union_left) (fun y hy => ?_) hw (.inr ?_)
  · exact mem_union_right _ (mem_toList.mp hy)
  · exact mem_toList.mpr (keep_subset_held s hw)

/-- **In a set that is not settled two orders of arrival end differently.** -/
theorem exists_fill_ne (hs : R.Distinct s) (hunsettled : ¬ R.Settled n s) :
    ∃ l l' : List α, l.Nodup ∧ l'.Nodup ∧ (∀ y, y ∈ l ↔ y ∈ s) ∧ (∀ y, y ∈ l' ↔ y ∈ s) ∧
      R.fill n ∅ l ≠ R.fill n ∅ l' := by
  unfold Settled at hunsettled
  push Not at hunsettled
  obtain ⟨x, hx, hout, w, hw, hle⟩ := hunsettled
  have hdrop : x ∈ R.dropped n s := mem_dropped.mpr ⟨hx, hout⟩
  obtain ⟨m, hm, hmin⟩ := exists_min_image (R.keep n s) R.key ⟨w, hw⟩
  have hlt : R.key m < R.key x := lt_of_le_of_ne ((hmin w hw).trans hle) fun h =>
    hout m hm (R.slot_eq_of_key m x h)
  refine ⟨R.rivalLast n s x, R.rivalsFirst n s, nodup_rivalLast hdrop, nodup_rivalsFirst s,
    mem_rivalLast hdrop, mem_rivalsFirst, fun heq => ?_⟩
  have hkept : m ∈ R.fill n ∅ (R.rivalLast n s x) := heq ▸ keep_subset_fill_rivalsFirst hs hm
  -- the rival takes the place of the least winner, which is not given again
  rw [rivalLast, fill_append, fill_held hs hdrop, fill_cons] at hkept
  refine notMem_fill (notMem_push_of_lt hs hx hout hm hmin hlt) (fun hmem => ?_) hkept
  exact (mem_dropped.mp (mem_of_mem_erase (mem_toList.mp hmem))).2 m hm rfl

end Orders

/-! ### Sorted lists -/

/-- The end of a sorted list holds the entries of the highest keys. -/
theorem mem_drop_iff [LinearOrder ρ] {l : List α} (hl : l.Pairwise fun a b => R.key a < R.key b)
    (x : α) : x ∈ l.drop (l.length - n) ↔
      x ∈ l ∧ (l.filter fun y => R.key x < R.key y).length < n := by
  induction l with
  | nil => simp
  | cons a l ih =>
    obtain ⟨hhead, hrest⟩ := List.pairwise_cons.mp hl
    by_cases hfit : (a :: l).length ≤ n
    · rw [Nat.sub_eq_zero_of_le hfit, List.drop_zero]
      refine (and_iff_left_of_imp fun hx => lt_of_lt_of_le ?_ hfit).symm
      exact List.length_filter_lt_length_iff_exists.mpr ⟨x, hx, by simp⟩
    · rw [List.length_cons] at hfit ⊢
      rw [show l.length + 1 - n = l.length - n + 1 by omega, List.drop_succ_cons, ih hrest,
        List.mem_cons]
      by_cases hxl : x ∈ l
      · rw [List.filter_cons_of_neg (by simpa using (hhead x hxl).le)]
        simp [hxl]
      · refine ⟨fun h => absurd h.1 hxl, fun ⟨hx, hlt⟩ => ?_⟩
        -- all of the rest outranks the head
        obtain rfl : x = a := hx.resolve_right hxl
        rw [List.filter_cons_of_neg (by simp), List.filter_eq_self.mpr
          (fun y hy => by simpa using hhead y hy)] at hlt
        omega

end Ranking

/-- An order of images comes from an order of the things themselves. -/
theorem List.exists_perm_map {α β : Type} {f : α → β} {l : List α} {images : List β}
    (h : images.Perm (l.map f)) : ∃ l' : List α, l'.Perm l ∧ l'.map f = images := by
  generalize hm : l.map f = m at h
  induction h generalizing l with
  | nil => exact ⟨[], by rw [List.map_eq_nil_iff.mp hm], rfl⟩
  | cons b _ ih =>
    obtain ⟨a, rest, rfl, rfl, hrest⟩ := List.map_eq_cons_iff.mp hm
    obtain ⟨l', hperm, rfl⟩ := ih hrest
    exact ⟨a :: l', hperm.cons a, rfl⟩
  | swap b c _ =>
    obtain ⟨a, rest, rfl, rfl, hrest⟩ := List.map_eq_cons_iff.mp hm
    obtain ⟨a', rest', rfl, rfl, rfl⟩ := List.map_eq_cons_iff.mp hrest
    exact ⟨a' :: a :: rest', List.Perm.swap a a' rest', rfl⟩
  | trans _ _ ih₁ ih₂ =>
    obtain ⟨l₂, hperm₂, rfl⟩ := ih₂ hm
    obtain ⟨l₁, hperm₁, rfl⟩ := ih₁ rfl
    exact ⟨l₁, hperm₁.trans hperm₂, rfl⟩
