import ElaraMesh.Lib.Multimap
import Mathlib.Data.Finset.Union
import Mathlib.Tactic.Linarith

/-!
# Breadth-first search to a depth

The search keeps a queue of members with the number of steps that led to them.  A member is put
into the queue when it is first met, and its own neighbours are looked at if the number is below a
bound.  A second bound may limit how many members are met.

Since the queue is worked off from the front, the members come level by level: what is first met on
a long way hides nothing, because every shorter way was looked at before.

## Main results

* `Search.search_eq_of_not_stopped` — a search that was not cut off is one without a limit.
* `Search.mem_search_iff` — a search without a limit meets what is within the depth.
* `Search.card_search_le` — the limit is kept.
-/

namespace Search

variable {α : Type} [DecidableEq α] {t : Table α (Finset α)}

/-- A way of the given number of steps. -/
inductive StepsIn (t : Table α (Finset α)) (a : α) : ℕ → α → Prop where
  | here : StepsIn t a 0 a
  | step {n : ℕ} {b c : α} (h : StepsIn t a n b) (hc : t.Rel b c) : StepsIn t a (n + 1) c

/-- Between one step and `d` steps away. -/
def Within (t : Table α (Finset α)) (a : α) (d : ℕ) (b : α) : Prop :=
  ∃ n, 1 ≤ n ∧ n ≤ d ∧ StepsIn t a n b

/-- Everything that some member is related to. -/
def targets (t : Table α (Finset α)) : Finset α := t.entries.toFinset.biUnion fun e => e.2

theorem mem_targets {a b : α} (h : t.Rel a b) : b ∈ targets t := by
  cases hlookup : t.lookup a with
  | none => exact absurd h (Table.not_rel_of_lookup hlookup b)
  | some next =>
    have hentry : (⟨a, next⟩ : Sigma fun _ : α => Finset α) ∈ t.entries :=
      AList.mem_lookup_iff.mp hlookup
    exact Finset.mem_biUnion.mpr
      ⟨⟨a, next⟩, List.mem_toFinset.mpr hentry, (Table.rel_of_lookup hlookup b).mp h⟩

/-! ### The search -/

/-- Meet a member: the first time, it is put at the end of the queue. -/
def meet (depth : ℕ) (s : Finset α × List (α × ℕ)) (a : α) : Finset α × List (α × ℕ) :=
  if a ∈ s.1 then s else (insert a s.1, s.2 ++ [(a, depth + 1)])

/-- As many members were met as the limit allows. -/
def full (limit : Option ℕ) (visited : Finset α) : Bool := limit.any (· ≤ visited.card)

/-- Meet the neighbours one after the other; also tells whether the limit was reached. -/
def expand (limit : Option ℕ) (depth : ℕ) :
    List α → Finset α × List (α × ℕ) → (Finset α × List (α × ℕ)) × Bool
  | [], s => (s, false)
  | a :: rest, s => if full limit s.1 then (s, true) else expand limit depth rest (meet depth s a)

/-- What may still be met, and what waits. -/
def pending (t : Table α (Finset α)) (s : Finset α × List (α × ℕ)) : ℕ :=
  (targets t \ s.1).card + s.2.length

theorem pending_meet_le {a b : α} (h : t.Rel a b) (depth : ℕ) (s : Finset α × List (α × ℕ)) :
    pending t (meet depth s b) ≤ pending t s := by
  unfold meet
  split
  · exact le_rfl
  · next hb =>
    -- the queue grows by one, and what may still be met becomes less
    have hmem : b ∈ targets t \ s.1 := Finset.mem_sdiff.mpr ⟨mem_targets h, hb⟩
    have hless : (targets t \ insert b s.1).card < (targets t \ s.1).card := by
      refine Finset.card_lt_card ⟨Finset.sdiff_subset_sdiff le_rfl (Finset.subset_insert b s.1), ?_⟩
      intro hsub
      exact (Finset.mem_sdiff.mp (hsub hmem)).2 (Finset.mem_insert_self b s.1)
    simp only [pending, List.length_append, List.length_singleton]
    omega

theorem pending_expand_le {a : α} {next : List α} (h : ∀ b ∈ next, t.Rel a b) (limit : Option ℕ)
    (depth : ℕ) (s : Finset α × List (α × ℕ)) :
    pending t (expand limit depth next s).1 ≤ pending t s := by
  induction next generalizing s with
  | nil => exact le_rfl
  | cons b rest ih =>
    obtain ⟨hb, hrest⟩ := List.forall_mem_cons.mp h
    unfold expand
    split
    · exact le_rfl
    · exact (ih hrest (meet depth s b)).trans (pending_meet_le hb depth s)

variable [SetWalk α]

theorem rel_of_mem_walk {a b : α} (h : b ∈ SetWalk.walk (t.getD a ∅)) : t.Rel a b :=
  SetWalk.mem_walk.mp h

/-- Work off the queue; also tells whether the limit was reached. -/
def search (t : Table α (Finset α)) (limit : Option ℕ) (maxDepth : ℕ) (visited : Finset α) :
    List (α × ℕ) → Finset α × Bool
  | [] => (visited, false)
  | (current, depth) :: queue =>
    if depth ≥ maxDepth then search t limit maxDepth visited queue
    else
      let found := expand limit depth (SetWalk.walk (t.getD current ∅)) (visited, queue)
      if found.2 then (found.1.1, true) else search t limit maxDepth found.1.1 found.1.2
termination_by queue => pending t (visited, queue)
decreasing_by
  · exact Nat.lt_succ_self _
  · exact (pending_expand_le (fun b hb => rel_of_mem_walk hb) limit depth (visited, queue)).trans_lt
      (Nat.lt_succ_self _)

/-! ### The limit -/

omit [SetWalk α] in
theorem expand_none (depth : ℕ) (next : List α) (s : Finset α × List (α × ℕ)) :
    expand none depth next s = (next.foldl (meet depth) s, false) := by
  induction next generalizing s with
  | nil => rfl
  | cons a rest ih => exact ih (meet depth s a)

omit [SetWalk α] in
/-- Where the limit did not stop it, it made no difference. -/
theorem expand_eq_of_not_stopped {limit : Option ℕ} {depth : ℕ} {next : List α}
    {s : Finset α × List (α × ℕ)} (h : (expand limit depth next s).2 = false) :
    expand limit depth next s = expand none depth next s := by
  induction next generalizing s with
  | nil => rfl
  | cons a rest ih =>
    rw [expand] at h ⊢
    split at h
    · cases h
    · next hfull =>
      rw [if_neg hfull]
      exact ih h

theorem search_eq_of_not_stopped {limit : Option ℕ} {maxDepth : ℕ} {visited : Finset α}
    {queue : List (α × ℕ)} (h : (search t limit maxDepth visited queue).2 = false) :
    search t limit maxDepth visited queue = search t none maxDepth visited queue := by
  induction visited, queue using search.induct t limit maxDepth with
  | case1 visited => rw [search, search]
  | case2 visited current depth queue hdepth ih =>
    rw [search, if_pos hdepth] at h ⊢
    rw [ih h, search, if_pos hdepth]
  | case3 visited current depth queue hdepth found hstopped =>
    rw [search, if_neg hdepth, if_pos hstopped] at h
    cases h
  | case4 visited current depth queue hdepth found hgoes ih =>
    rw [search, if_neg hdepth, if_neg hgoes] at h ⊢
    have heq := expand_eq_of_not_stopped (Bool.eq_false_of_not_eq_true hgoes)
    rw [ih h, search.eq_2 t none, if_neg hdepth, ← heq, if_neg hgoes]

omit [SetWalk α] in
theorem card_expand_le {n : ℕ} {depth : ℕ} (next : List α) {s : Finset α × List (α × ℕ)}
    (h : s.1.card ≤ n) : (expand (some n) depth next s).1.1.card ≤ n := by
  induction next generalizing s with
  | nil => exact h
  | cons a rest ih =>
    unfold expand
    split
    · exact h
    · next hfull =>
      have hroom : s.1.card < n := by simpa [full] using hfull
      refine ih ?_
      unfold meet
      split
      · exact h
      · exact (Finset.card_insert_le a s.1).trans hroom

/-- No more members are met than the limit allows. -/
theorem card_search_le {n maxDepth : ℕ} {visited : Finset α} {queue : List (α × ℕ)}
    (h : visited.card ≤ n) : (search t (some n) maxDepth visited queue).1.card ≤ n := by
  induction visited, queue using search.induct t (some n) maxDepth with
  | case1 visited =>
    rw [search]
    exact h
  | case2 visited current depth queue hdepth ih =>
    rw [search, if_pos hdepth]
    exact ih h
  | case3 visited current depth queue hdepth found hstopped =>
    rw [search, if_neg hdepth, if_pos hstopped]
    exact card_expand_le _ h
  | case4 visited current depth queue hdepth found hgoes ih =>
    rw [search, if_neg hdepth, if_neg hgoes]
    exact ih (card_expand_le _ h)

/-! ### Level by level -/

omit [SetWalk α] in
/-- What is met for the first time is put behind the queue. -/
theorem foldl_meet (depth : ℕ) (next : List α) (visited : Finset α) (queue : List (α × ℕ)) :
    ∃ new : List α, next.foldl (meet depth) (visited, queue) =
        (visited ∪ next.toFinset, queue ++ new.map (·, depth + 1)) ∧
      ∀ x, x ∈ new ↔ x ∈ next ∧ x ∉ visited := by
  induction next generalizing visited queue with
  | nil => exact ⟨[], by simp, by simp⟩
  | cons a rest ih =>
    rw [List.foldl_cons, meet]
    by_cases ha : a ∈ visited
    · rw [if_pos ha]
      obtain ⟨new, heq, hnew⟩ := ih visited queue
      refine ⟨new, ?_, fun x => ?_⟩
      · rw [heq, List.toFinset_cons, Finset.union_insert,
          Finset.insert_eq_of_mem (Finset.mem_union_left _ ha)]
      · rw [hnew x, List.mem_cons]
        refine and_congr_left fun hx => (or_iff_right ?_).symm
        rintro rfl
        exact hx ha
    · rw [if_neg ha]
      obtain ⟨new, heq, hnew⟩ := ih (insert a visited) (queue ++ [(a, depth + 1)])
      refine ⟨a :: new, ?_, fun x => ?_⟩
      · rw [heq, List.toFinset_cons, Finset.union_insert, Finset.insert_union]
        simp
      · rw [List.mem_cons, hnew x, List.mem_cons, Finset.mem_insert]
        by_cases hx : x = a
        · simp [hx, ha]
        · simp [hx]

/-- Members at a depth that is not gone beyond are dropped. -/
theorem search_deep (limit : Option ℕ) (maxDepth : ℕ) (visited : Finset α) (members : List α) :
    search t limit maxDepth visited (members.map (·, maxDepth)) = (visited, false) := by
  induction members with
  | nil => rw [List.map_nil, search]
  | cons a rest ih => rw [List.map_cons, search, if_pos le_rfl, ih]

/-- Working off a level meets the neighbours of its members. -/
theorem search_level {depth maxDepth : ℕ} (hdepth : depth < maxDepth) (level behind : List α)
    (visited : Finset α) : ∃ (visited' : Finset α) (new : List α),
      search t none maxDepth visited (level.map (·, depth) ++ behind.map (·, depth + 1)) =
        search t none maxDepth visited' ((behind ++ new).map (·, depth + 1)) ∧
      (∀ x, x ∈ visited' ↔ x ∈ visited ∨ ∃ y ∈ level, t.Rel y x) ∧
      ∀ x, x ∈ new ↔ x ∉ visited ∧ ∃ y ∈ level, t.Rel y x := by
  induction level generalizing behind visited with
  | nil => exact ⟨visited, [], by simp, by simp, by simp⟩
  | cons a level ih =>
    obtain ⟨first, hfold, hfirst⟩ := foldl_meet depth (SetWalk.walk (t.getD a ∅)) visited
      (level.map (·, depth) ++ behind.map (·, depth + 1))
    obtain ⟨visited', new, hsearch, hvisited, hnew⟩ := ih (behind ++ first)
      (visited ∪ (SetWalk.walk (t.getD a ∅)).toFinset)
    have hwalk : ∀ x, x ∈ SetWalk.walk (t.getD a ∅) ↔ t.Rel a x := fun x => SetWalk.mem_walk
    refine ⟨visited', first ++ new, ?_, fun x => ?_, fun x => ?_⟩
    · rw [List.map_cons, List.cons_append, search, if_neg (not_le.mpr hdepth), expand_none, hfold,
        ← List.append_assoc, ← hsearch, List.map_append, List.append_assoc]
      rfl
    · rw [hvisited x, Finset.mem_union, List.mem_toFinset, hwalk, List.exists_mem_cons_iff, or_assoc]
    · rw [List.mem_append, hfirst x, hnew x, Finset.mem_union, List.mem_toFinset, hwalk,
        List.exists_mem_cons_iff]
      tauto

/-- Before a level is worked off: what is nearer was met, and those at this distance wait unless
their neighbours were met as well. -/
structure Level (t : Table α (Finset α)) (a : α) (depth : ℕ) (visited : Finset α)
    (level : List α) : Prop where
  met : ∀ x, x ∈ visited ↔ Within t a depth x
  waiting : ∀ y ∈ level, StepsIn t a depth y
  covered : ∀ y, StepsIn t a depth y → y ∈ level ∨ ∀ x, t.Rel y x → x ∈ visited

namespace Level

variable {a : α} {depth maxDepth : ℕ} {visited : Finset α} {level : List α}

omit [SetWalk α] in
theorem start (t : Table α (Finset α)) (a : α) : Level t a 0 ∅ [a] where
  met x := by
    refine iff_of_false (Finset.notMem_empty x) ?_
    rintro ⟨n, hpos, hle, -⟩
    omega
  waiting y hy := by
    rw [List.mem_singleton.mp hy]
    exact .here
  covered y hy := by
    cases hy
    exact Or.inl (List.mem_singleton_self a)

omit [SetWalk α] in
theorem next (h : Level t a depth visited level) {visited' : Finset α} {new : List α}
    (hvisited : ∀ x, x ∈ visited' ↔ x ∈ visited ∨ ∃ y ∈ level, t.Rel y x)
    (hnew : ∀ x, x ∈ new ↔ x ∉ visited ∧ ∃ y ∈ level, t.Rel y x) :
    Level t a (depth + 1) visited' new := by
  -- a member one step further is a neighbour of one at this distance
  have hstep : ∀ x, StepsIn t a (depth + 1) x → x ∈ visited ∨ ∃ y ∈ level, t.Rel y x := by
    rintro x (_ | ⟨hy, hx⟩)
    rename_i y
    rcases h.covered y hy with hlevel | hmet
    · exact Or.inr ⟨y, hlevel, hx⟩
    · exact Or.inl (hmet x hx)
  have hmet : ∀ x, x ∈ visited' ↔ Within t a (depth + 1) x := by
    intro x
    rw [hvisited x]
    constructor
    · rintro (hx | ⟨y, hy, hx⟩)
      · obtain ⟨n, hpos, hle, hn⟩ := (h.met x).mp hx
        exact ⟨n, hpos, Nat.le_succ_of_le hle, hn⟩
      · exact ⟨depth + 1, Nat.le_add_left 1 depth, le_rfl, (h.waiting y hy).step hx⟩
    · rintro ⟨n, hpos, hle, hn⟩
      rcases Nat.le_succ_iff.mp hle with hle | rfl
      · exact Or.inl ((h.met x).mpr ⟨n, hpos, hle, hn⟩)
      · exact hstep x hn
  refine ⟨hmet, ?_, ?_⟩
  · intro y hy
    obtain ⟨-, z, hz, hzy⟩ := (hnew y).mp hy
    exact (h.waiting z hz).step hzy
  · intro y hy
    by_cases hold : y ∈ visited
    · -- it was met nearer by, so its neighbours are not further than this
      obtain ⟨n, hpos, hle, hn⟩ := (h.met y).mp hold
      refine Or.inr fun x hx => (hmet x).mpr ⟨n + 1, Nat.le_add_left 1 n, ?_, hn.step hx⟩
      omega
    · exact Or.inl ((hnew y).mpr ⟨hold, (hstep y hy).resolve_left hold⟩)

/-- From a level on, the search meets what is within the depth. -/
theorem mem_search_iff (h : Level t a depth visited level) (hdepth : depth ≤ maxDepth) (x : α) :
    x ∈ (search t none maxDepth visited (level.map (·, depth))).1 ↔ Within t a maxDepth x := by
  induction hk : maxDepth - depth generalizing depth visited level with
  | zero =>
    obtain rfl : depth = maxDepth := by omega
    rw [search_deep]
    exact h.met x
  | succ k ih =>
    obtain ⟨visited', new, hsearch, hvisited, hnew⟩ :=
      search_level (t := t) (show depth < maxDepth by omega) level [] visited
    rw [List.map_nil, List.append_nil, List.nil_append] at hsearch
    rw [hsearch]
    exact ih (h.next hvisited hnew) (by omega) (by omega)

end Level

/-- A search from a member meets exactly what is between one step and the depth away. -/
theorem mem_search_iff (t : Table α (Finset α)) (a : α) (maxDepth : ℕ) (x : α) :
    x ∈ (search t none maxDepth ∅ [(a, 0)]).1 ↔ Within t a maxDepth x :=
  (Level.start t a).mem_search_iff (Nat.zero_le maxDepth) x

end Search
