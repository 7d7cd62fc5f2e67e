import ElaraMesh.Itc.Advance
import ElaraMesh.Itc.Merge

/-!
# Stamps and causal histories

A causal history is the set of all events a stamp has seen: a fork copies it and a join unites
two.  Stamps do the same in little space.  As long as the forks are clean, the joins faithful and no
counter is full, two stamps are in the order of their counters exactly if one has seen all that the
other has, so that `leq` never orders what is concurrent.

## Main results

* `allKnow_followStep` — an exact operation keeps counters and histories together.
* `stamps_refine_histories` — **the order of the stamps is that of their histories.**
-/

namespace ElaraMesh
namespace Itc

open Event

/-! ### Histories -/

/-- One operation on stamps with their causal histories.  An event is known by the number of the
operation that recorded it. -/
def followStep (n : ℕ) (ws : List (Stamp × Finset ℕ)) : Op → Option (List (Stamp × Finset ℕ))
  | .fork i => ws[i]?.map fun w => ws.set i (w.1.fork.1, w.2) ++ [(w.1.fork.2, w.2)]
  | .event i => ws[i]?.map fun w => ws.set i (w.1.recordEvent, insert n w.2)
  | .join i j =>
    if i = j then none
    else
      match ws[i]?, ws[j]? with
      | some w, some v => some ((ws.set i (w.1.join v.1, w.2 ∪ v.2)).eraseIdx j)
      | _, _ => none

/-- A run of operations, the first of which has the number `n`. -/
def follow : ℕ → List (Stamp × Finset ℕ) → List Op → Option (List (Stamp × Finset ℕ))
  | _, ws, [] => some ws
  | n, ws, op :: ops => (followStep n ws op).bind fun ws' => follow (n + 1) ws' ops

theorem followStep_stamps (n : ℕ) (ws : List (Stamp × Finset ℕ)) (op : Op) :
    (followStep n ws op).map (List.map Prod.fst) = step (ws.map Prod.fst) op := by
  cases op with
  | fork i => cases hi : ws[i]? <;> simp [followStep, step, hi, List.map_set]
  | event i => cases hi : ws[i]? <;> simp [followStep, step, hi, List.map_set]
  | join i j =>
    by_cases hij : i = j
    · simp [followStep, step, hij]
    · cases hi : ws[i]? <;> cases hj : ws[j]? <;>
        simp [followStep, step, hij, hi, hj, List.map_set, ← List.eraseIdx_map]

theorem follow_stamps (ops : List Op) (n : ℕ) (ws : List (Stamp × Finset ℕ)) :
    (follow n ws ops).map (List.map Prod.fst) = run (ws.map Prod.fst) ops := by
  induction ops generalizing n ws with
  | nil => rfl
  | cons op ops ih =>
    rw [follow, run, List.foldlM_cons, ← followStep_stamps n ws op]
    cases followStep n ws op with
    | none => rfl
    | some ws' => exact ih (n + 1) ws'

/-- A fork is clean, a join is faithful, and no counter is full. -/
def Exact (ps : List Stamp) : Op → Prop
  | .fork i => Clean ps (.fork i)
  | .event i => ∀ s, ps[i]? = some s → s.event.peak < U64.max
  | .join i j => ∀ s t, ps[i]? = some s → ps[j]? = some t →
      s.event.peak < U64.max ∧ t.event.peak < U64.max ∧ JoinFaithful s.event t.event

def ExactRun : List Stamp → List Op → Prop
  | _, [] => True
  | ps, op :: ops => Exact ps op ∧ ∀ ps', step ps op = some ps' → ExactRun ps' ops

/-! ### What counters say about histories -/

/-- The counter of a stamp at a point is that of the last event it has seen there; with an event it
has seen those before it at the same point, and whoever owns a point has seen all that counted it.
`log k x` is the counter that the event `k` left at `x`, if it counted `x`. -/
structure Knows (n : ℕ) (log : ℕ → Point → Option ℕ) (s : Stamp) (h : Finset ℕ) : Prop where
  seen : ∀ k ∈ h, k < n ∧ ∃ x c, log k x = some c ∧ 0 < c
  counted : ∀ k ∈ h, ∀ x c, log k x = some c → c ≤ s.event.value x
  last : ∀ x, s.event.value x = 0 ∨ ∃ k ∈ h, log k x = some (s.event.value x)
  closed : ∀ f ∈ h, ∀ x e c d, log f x = some d → log e x = some c → c ≤ d → e ∈ h
  owner : ∀ x, s.id.owns x = true → ∀ e c, log e x = some c → e ∈ h
  owns : ∃ x, s.id.owns x = true
  fits : s.event.peak ≤ U64.max

theorem Id.exists_owns : ∀ {id : Id}, id.Tight → id.isZero = false → ∃ x, id.owns x = true
  | leaf true, _, _ => ⟨fun _ => false, rfl⟩
  | node l r, ⟨hl, hr, hne⟩, _ => by
    cases hlz : l.isZero with
    | false =>
      obtain ⟨x, hx⟩ := exists_owns hl hlz
      exact ⟨Point.cons false x, hx⟩
    | true =>
      obtain ⟨x, hx⟩ := exists_owns hr (by simpa [hlz] using hne)
      exact ⟨Point.cons true x, hx⟩

/-- The log with the event that is recorded on a stamp. -/
def logged (n : ℕ) (log : ℕ → Point → Option ℕ) (s : Stamp) : ℕ → Point → Option ℕ :=
  Function.update log n fun x => if s.id.owns x then some (s.recordEvent.event.value x) else none

theorem logged_eq_some {n : ℕ} {log : ℕ → Point → Option ℕ} {s : Stamp} {e : ℕ} {x : Point} {c : ℕ} :
    logged n log s e x = some c ↔
      if e = n then s.id.owns x = true ∧ s.recordEvent.event.value x = c else log e x = some c := by
  unfold logged
  split
  next he => simp [he]
  next he => rw [Function.update_of_ne he]

namespace Knows

variable {n : ℕ} {log : ℕ → Point → Option ℕ} {s t : Stamp} {h k : Finset ℕ}

theorem pointwiseLe_iff (hs : Knows n log s h) (ht : Knows n log t k) :
    PointwiseLe s.event t.event ↔ h ⊆ k := by
  constructor
  · intro hle e he
    obtain ⟨-, x, c, hx, hpos⟩ := hs.seen e he
    have hcount := (hs.counted e he x c hx).trans (hle x)
    rcases ht.last x with hzero | ⟨f, hf, hfx⟩
    · omega
    · exact ht.closed f hf x e c _ hfx hx hcount
  · intro hsub x
    rcases hs.last x with hzero | ⟨e, he, hx⟩
    · omega
    · exact ht.counted e (hsub he) x _ hx

/-- A stamp with a part of the identity knows the same. -/
theorem part (hs : Knows n log s h) {id : Id} (hpart : ∀ x, id.owns x = true → s.id.owns x = true)
    (howns : ∃ x, id.owns x = true) : Knows (n + 1) log ⟨id, s.event⟩ h where
  seen e he := ⟨(hs.seen e he).1.trans n.lt_succ_self, (hs.seen e he).2⟩
  counted := hs.counted
  last := hs.last
  closed := hs.closed
  owner x hx := hs.owner x (hpart x hx)
  owns := howns
  fits := hs.fits

/-- Both parts of a clean fork know what the stamp knew. -/
theorem fork (hs : Knows n log s h) (htight : s.id.Tight) (hclean : s.id.splitsBoth = false) :
    Knows (n + 1) log s.fork.1 h ∧ Knows (n + 1) log s.fork.2 h := by
  have hzero : s.id.isZero = false := by
    obtain ⟨x, hx⟩ := hs.owns
    refine Bool.eq_false_iff.mpr fun hz => ?_
    rw [Id.isZero_iff.mp hz] at hx
    cases hx
  have howners : ∀ x, (s.id.fork.1.owns x = true ∨ s.id.fork.2.owns x = true) → s.id.owns x = true := by
    intro x hx
    have hpair := Id.pairOwners_fork hclean x
    unfold Id.pairOwners at hpair
    cases hown : s.id.owns x with
    | true => rfl
    | false => rcases hx with hx | hx <;> simp [hown, hx] at hpair
  exact ⟨hs.part (fun x hx => howners x (.inl hx))
      (Id.exists_owns (Id.fork_tight htight).1 (Id.fork_isZero hzero).1),
    hs.part (fun x hx => howners x (.inr hx))
      (Id.exists_owns (Id.fork_tight htight).2 (Id.fork_isZero hzero).2)⟩

theorem join (hs : Knows n log s h) (ht : Knows n log t k) (hspeak : s.event.peak < U64.max)
    (htpeak : t.event.peak < U64.max) (hfaithful : JoinFaithful s.event t.event) :
    Knows (n + 1) log (s.join t) (h ∪ k) := by
  have hvalue : ∀ x, (s.join t).event.value x = max (s.event.value x) (t.event.value x) :=
    (joinsToMax_iff hspeak htpeak).mpr hfaithful
  refine ⟨fun e he => ?_, fun e he x c hx => ?_, fun x => ?_, fun f hf x e c d hfx hex hcd => ?_,
    fun x hx e c hex => ?_, ?_, (peak_join_lt hspeak htpeak hvalue).le⟩
  · obtain ⟨hlt, hplace⟩ := (Finset.mem_union.mp he).elim (hs.seen e) (ht.seen e)
    exact ⟨hlt.trans n.lt_succ_self, hplace⟩
  · rw [hvalue]
    rcases Finset.mem_union.mp he with he | he
    · exact le_max_of_le_left (hs.counted e he x c hx)
    · exact le_max_of_le_right (ht.counted e he x c hx)
  · -- the larger counter is that of one of the two
    rw [hvalue]
    rcases max_choice (s.event.value x) (t.event.value x) with heq | heq
    · rw [heq]
      exact (hs.last x).imp_right fun ⟨e, he, hex⟩ => ⟨e, Finset.mem_union_left k he, hex⟩
    · rw [heq]
      exact (ht.last x).imp_right fun ⟨e, he, hex⟩ => ⟨e, Finset.mem_union_right h he, hex⟩
  · rcases Finset.mem_union.mp hf with hf | hf
    · exact Finset.mem_union_left k (hs.closed f hf x e c d hfx hex hcd)
    · exact Finset.mem_union_right h (ht.closed f hf x e c d hfx hex hcd)
  · rw [Stamp.join, Id.owns_join, Bool.or_eq_true] at hx
    rcases hx with hx | hx
    · exact Finset.mem_union_left k (hs.owner x hx e c hex)
    · exact Finset.mem_union_right h (ht.owner x hx e c hex)
  · obtain ⟨x, hx⟩ := hs.owns
    exact ⟨x, by rw [Stamp.join, Id.owns_join, hx, Bool.true_or]⟩

/-- Who does not own what the new event counted knows what it knew. -/
theorem beside (ht : Knows n log t k) (hs : Knows n log s h) (hpeak : s.event.peak < U64.max)
    (hapart : Apart t s) : Knows (n + 1) (logged n log s) t k := by
  obtain ⟨-, hraised, -⟩ := recordEvent_advances s hs.owns hpeak
  have hold : ∀ e ∈ k, ∀ x c, logged n log s e x = some c ↔ log e x = some c := fun e he x c => by
    rw [logged_eq_some, if_neg (ht.seen e he).1.ne]
  refine ⟨fun e he => ?_, fun e he x c hex => ht.counted e he x c ((hold e he x c).mp hex),
    fun x => (ht.last x).imp_right fun ⟨e, he, hex⟩ => ⟨e, he, (hold e he x _).mpr hex⟩,
    fun f hf x e c d hfx hex hcd => ?_, fun x hx e c hex => ?_, ht.owns, ht.fits⟩
  · obtain ⟨hlt, x, c, hex, hpos⟩ := ht.seen e he
    exact ⟨hlt.trans n.lt_succ_self, x, c, (hold e he x c).mpr hex, hpos⟩
  · rw [hold f hf] at hfx
    rw [logged_eq_some] at hex
    split at hex
    · -- the owner had seen `f`, so the counter of the new event is larger
      have hseen := hs.counted f (hs.owner x hex.1 f d hfx) x d hfx
      have := hraised x hex.1
      omega
    · exact ht.closed f hf x e c d hfx hex hcd
  · rw [logged_eq_some] at hex
    split at hex
    · exact absurd ⟨hx, hex.1⟩ (hapart x)
    · exact ht.owner x hx e c hex

/-- A stamp on which an event is recorded has seen the event. -/
theorem recordEvent (hs : Knows n log s h) (hpeak : s.event.peak < U64.max) :
    Knows (n + 1) (logged n log s) s.recordEvent (insert n h) := by
  obtain ⟨⟨hle, -⟩, hraised, hsame, -⟩ := recordEvent_advances s hs.owns hpeak
  have hself : ∀ x, s.id.owns x = true →
      logged n log s n x = some (s.recordEvent.event.value x) := fun x hx =>
    logged_eq_some.mpr (by rw [if_pos rfl]; exact ⟨hx, rfl⟩)
  have hold : ∀ e ∈ h, ∀ x c, logged n log s e x = some c ↔ log e x = some c := fun e he x c => by
    rw [logged_eq_some, if_neg (hs.seen e he).1.ne]
  -- an event that counted a point of the owner is the new one, or the owner had seen it
  have howner : ∀ x, s.id.owns x = true → ∀ e c, logged n log s e x = some c → e ∈ insert n h := by
    intro x hx e c hex
    rw [logged_eq_some] at hex
    split at hex
    next he => exact he ▸ Finset.mem_insert_self n h
    next => exact Finset.mem_insert_of_mem (hs.owner x hx e c hex)
  refine ⟨fun e he => ?_, fun e he x c hex => ?_, fun x => ?_, fun f hf x e c d hfx hex hcd => ?_,
    howner, hs.owns, ?_⟩
  · rcases Finset.mem_insert.mp he with rfl | he
    · obtain ⟨x, hx⟩ := hs.owns
      exact ⟨e.lt_succ_self, x, _, hself x hx, Nat.zero_lt_of_lt (hraised x hx)⟩
    · obtain ⟨hlt, x, c, hex, hpos⟩ := hs.seen e he
      exact ⟨hlt.trans n.lt_succ_self, x, c, (hold e he x c).mpr hex, hpos⟩
  · rcases Finset.mem_insert.mp he with rfl | he
    · rw [logged_eq_some, if_pos rfl] at hex
      exact hex.2.ge
    · exact (hs.counted e he x c ((hold e he x c).mp hex)).trans (hle x)
  · cases hx : s.id.owns x with
    | true => exact .inr ⟨n, Finset.mem_insert_self n h, hself x hx⟩
    | false =>
      rw [hsame x hx]
      exact (hs.last x).imp_right fun ⟨e, he, hex⟩ =>
        ⟨e, Finset.mem_insert_of_mem he, (hold e he x _).mpr hex⟩
  · cases hx : s.id.owns x with
    | true => exact howner x hx e c hex
    | false =>
      -- the new event did not count the point
      rw [logged_eq_some, hx] at hfx hex
      split at hfx
      · cases hfx.1
      split at hex
      · cases hex.1
      next hfn _ =>
      have hf := (Finset.mem_insert.mp hf).resolve_left hfn
      exact Finset.mem_insert_of_mem (hs.closed f hf x e c d hfx hex hcd)
  · have hfill := peak_fill_le s.id hpeak
    have hafter := peak_normalize_le (fill s.id s.event)
    show (fill s.id s.event).normalize.peak ≤ U64.max
    omega

end Knows

/-! ### Runs -/

theorem apart_of_partition {ps : List Stamp} (hp : Partition ps) {i j : ℕ} {s t : Stamp}
    (hi : ps[i]? = some s) (hj : ps[j]? = some t) (hij : i ≠ j) : Apart s t := by
  obtain ⟨hlt, rfl⟩ := List.getElem?_eq_some_iff.mp hi
  obtain ⟨hlt', rfl⟩ := List.getElem?_eq_some_iff.mp hj
  have hpairs := List.pairwise_iff_getElem.mp hp.1
  rcases hij.lt_or_gt with h | h
  · exact hpairs i j hlt hlt' h
  · exact fun x hx => hpairs j i hlt' hlt h x hx.symm

def AllKnow (n : ℕ) (ws : List (Stamp × Finset ℕ)) : Prop := ∃ log, ∀ w ∈ ws, Knows n log w.1 w.2

/-- **An exact operation keeps counters and histories together.** -/
theorem allKnow_followStep {n : ℕ} {ws ws' : List (Stamp × Finset ℕ)} {op : Op}
    (hknow : AllKnow n ws) (htight : AllTight (ws.map Prod.fst))
    (hpart : Partition (ws.map Prod.fst)) (hexact : Exact (ws.map Prod.fst) op)
    (hstep : followStep n ws op = some ws') : AllKnow (n + 1) ws' := by
  obtain ⟨log, hknow⟩ := hknow
  have hlater : ∀ w ∈ ws, Knows (n + 1) log w.1 w.2 := fun w hw =>
    (hknow w hw).part (fun _ hx => hx) (hknow w hw).owns
  have hmap : ∀ {i : ℕ} {w : Stamp × Finset ℕ}, ws[i]? = some w →
      (ws.map Prod.fst)[i]? = some w.1 := fun hi => by
    rw [List.getElem?_map, hi]
    rfl
  cases op with
  | fork i =>
    obtain ⟨w, hi, rfl⟩ := Option.map_eq_some_iff.mp hstep
    have hw := List.mem_of_getElem? hi
    obtain ⟨hleft, hright⟩ := (hknow w hw).fork
      (htight w.1 (List.mem_map_of_mem hw)) (hexact w.1 (hmap hi))
    refine ⟨log, fun v hv => ?_⟩
    rcases List.mem_append.mp hv with hv | hv
    · rcases List.mem_or_eq_of_mem_set hv with hv | rfl
      · exact hlater v hv
      · exact hleft
    · rw [List.mem_singleton.mp hv]
      exact hright
  | event i =>
    obtain ⟨w, hi, rfl⟩ := Option.map_eq_some_iff.mp hstep
    have hw := hknow w (List.mem_of_getElem? hi)
    have hpeak := hexact w.1 (hmap hi)
    refine ⟨logged n log w.1, fun v hv => ?_⟩
    have hlt := (List.getElem?_eq_some_iff.mp hi).1
    rcases List.mem_cons.mp ((List.set_perm_cons_eraseIdx hlt _).mem_iff.mp hv) with rfl | hv
    · exact hw.recordEvent hpeak
    · -- another stamp, which owns none of the points
      obtain ⟨j, hji, hj⟩ := List.mem_eraseIdx_iff_getElem?.mp hv
      exact (hknow v (List.mem_of_getElem? hj)).beside hw hpeak
        (apart_of_partition hpart (hmap hj) (hmap hi) hji)
  | join i j =>
    rw [followStep] at hstep
    split at hstep
    · cases hstep
    split at hstep
    · next w v hi hj =>
      cases hstep
      obtain ⟨hwpeak, hvpeak, hfaithful⟩ := hexact w.1 v.1 (hmap hi) (hmap hj)
      refine ⟨log, fun u hu => ?_⟩
      rcases List.mem_or_eq_of_mem_set (List.mem_of_mem_eraseIdx hu) with hu | rfl
      · exact hlater u hu
      · exact (hknow w (List.mem_of_getElem? hi)).join (hknow v (List.mem_of_getElem? hj)) hwpeak
          hvpeak hfaithful
    · cases hstep

/-- The induction is on the run, with a population that is a partition and knows its histories. -/
theorem allKnow_follow {n : ℕ} {ws ws' : List (Stamp × Finset ℕ)} {ops : List Op}
    (hknow : AllKnow n ws) (htight : AllTight (ws.map Prod.fst))
    (hpart : Partition (ws.map Prod.fst)) (hexact : ExactRun (ws.map Prod.fst) ops)
    (hws : follow n ws ops = some ws') : ∃ m, AllKnow m ws' := by
  induction ops generalizing n ws with
  | nil => exact ⟨n, Option.some.inj hws ▸ hknow⟩
  | cons op ops ih =>
    obtain ⟨next, hstep, hws⟩ := Option.bind_eq_some_iff.mp hws
    have hstamps : step (ws.map Prod.fst) op = some (next.map Prod.fst) := by
      rw [← followStep_stamps n, hstep]
      rfl
    have hclean : Clean (ws.map Prod.fst) op := by
      cases op with
      | fork i => exact hexact.1
      | event i => trivial
      | join i j => trivial
    exact ih (allKnow_followStep hknow htight hpart hexact.1 hstep)
      (step_allTight hstamps htight) (step_partition hstamps hclean hpart)
      (hexact.2 _ hstamps) hws

/-- **The order of the stamps is that of their histories.**  In an exact run from the seed, the
counters of one stamp are nowhere above those of another exactly if all events that the one has seen
were seen by the other; so two stamps that `leq` orders are causally ordered. -/
theorem stamps_refine_histories (ops : List Op) (hexact : ExactRun [Stamp.seed] ops) :
    (follow 0 [(Stamp.seed, ∅)] ops).map (List.map Prod.fst) = run [Stamp.seed] ops ∧
      ∀ ws, follow 0 [(Stamp.seed, ∅)] ops = some ws → ∀ w ∈ ws, ∀ v ∈ ws,
        (PointwiseLe w.1.event v.1.event ↔ w.2 ⊆ v.2) ∧
          (w.1.leq v.1 = true → w.2 ⊆ v.2) := by
  refine ⟨follow_stamps ops 0 _, fun ws hws w hw v hv => ?_⟩
  have hseed : AllKnow 0 [(Stamp.seed, ∅)] := by
    refine ⟨fun _ _ => none, fun w hw => ?_⟩
    rw [List.mem_singleton.mp hw]
    exact ⟨by simp, by simp, fun x => .inl rfl, by simp, by simp, ⟨fun _ => false, rfl⟩, by decide⟩
  obtain ⟨m, log, hknow⟩ := allKnow_follow hseed allTight_seed partition_seed hexact hws
  have hle := (hknow w hw).pointwiseLe_iff (hknow v hv)
  exact ⟨hle, fun hleq => hle.mp ((leq_iff (hknow w hw).fits (hknow v hv).fits).mp hleq).1⟩

/-- Two halves record an event each: neither has seen that of the other. -/
theorem stamps_refine_histories_halves :
    (follow 0 [(Stamp.seed, ∅)] [.fork 0, .event 0, .event 1]).map (List.map Prod.snd) =
        some [{1}, {2}] ∧
      ∀ ws, follow 0 [(Stamp.seed, ∅)] [.fork 0, .event 0, .event 1] = some ws →
        ∀ w ∈ ws, ∀ v ∈ ws, (PointwiseLe w.1.event v.1.event ↔ w.2 ⊆ v.2) ∧
          (w.1.leq v.1 = true → w.2 ⊆ v.2) := by
  refine ⟨by decide, (stamps_refine_histories _ ?_).2⟩
  simp [ExactRun, Exact, Clean, step, Stamp.seed, Stamp.fork, Stamp.recordEvent, Id.seed, Id.fork,
    Id.splitsBoth, Event.zero, peak, U64.max]

end Itc
end ElaraMesh
