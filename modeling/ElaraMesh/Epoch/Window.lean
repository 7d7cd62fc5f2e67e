import ElaraMesh.Epoch.Step

/-!
# The super-seal window is a function of the seals

The window of a zone holds one hash for each of the 64 epochs up to the tip.  A seal enters it
whether it becomes the tip, loses against the tip, arrives late or is promoted, and it replaces a
larger hash of its epoch only.  The tip never falls, so an epoch that has left the window does
not come back.  Hence the window holds the smallest hash that was registered for each of its
epochs, whatever the order and the weights, and two nodes that registered the same seals make
super-seals of the same hashes.

## Main results

* `Tracks.run` — the windows are exact after every list of calls without escalations.
* `window_of_registered` — **the window is a function of the registered seals**.
-/

namespace ElaraMesh
namespace Epoch

open Record (Str ZoneId)
open Smt (Bytes32)

def windowFloor (tip : ℕ) : ℕ := tip - (superSealInterval - 1)

/-- A window has the smallest registered hash of each of its epochs. -/
structure Holds (buf : OrderedMap ℕ Bytes32) (tip : ℕ) (seals : Set (ℕ × Bytes32)) : Prop where
  least : ∀ e h, buf.get? e = some h →
    windowFloor tip ≤ e ∧ (e, h) ∈ seals ∧ ∀ h', (e, h') ∈ seals → h ≤ h'
  none : ∀ e h, buf.get? e = none → windowFloor tip ≤ e → (e, h) ∉ seals

namespace Holds

variable {buf : OrderedMap ℕ Bytes32} {tip epoch : ℕ} {seals : Set (ℕ × Bytes32)} {hash : Bytes32}

theorem get?_eq_some_iff (h : Holds buf tip seals) (e : ℕ) (hash : Bytes32) :
    buf.get? e = some hash ↔
      windowFloor tip ≤ e ∧ (e, hash) ∈ seals ∧ ∀ h', (e, h') ∈ seals → hash ≤ h' := by
  refine ⟨h.least e hash, fun ⟨hfloor, hmem, hmin⟩ => ?_⟩
  cases hget : buf.get? e with
  | none => exact absurd hmem (h.none e hash hget hfloor)
  | some old =>
    obtain ⟨-, hold, holdmin⟩ := h.least e old hget
    rw [le_antisymm (holdmin hash hmem) (hmin old hold)]

/-- A window is determined by the tip and the registered seals. -/
theorem unique {buf' : OrderedMap ℕ Bytes32} (h : Holds buf tip seals)
    (h' : Holds buf' tip seals) : buf = buf' := by
  refine OrderedMap.ext_get? fun e => Option.ext fun hash => ?_
  rw [h.get?_eq_some_iff, h'.get?_eq_some_iff]

/-- A seal below the window does not touch it. -/
theorem below (h : Holds buf tip seals) (hbelow : epoch < windowFloor tip) :
    Holds buf tip (insert (epoch, hash) seals) := by
  have hne : ∀ e h', windowFloor tip ≤ e → (e, h') ∈ insert (epoch, hash) seals →
      (e, h') ∈ seals := by
    intro e h' hfloor hmem
    rcases hmem with heq | hmem
    · rw [(Prod.mk.inj heq).1] at hfloor
      omega
    · exact hmem
  refine ⟨fun e h' hget => ?_, fun e h' hget hfloor hmem => ?_⟩
  · obtain ⟨hfloor, hmem, hmin⟩ := h.least e h' hget
    exact ⟨hfloor, .inr hmem, fun h'' hmem' => hmin h'' (hne e h'' hfloor hmem')⟩
  · exact h.none e h' hget hfloor (hne e h' hfloor hmem)

/-- What a window with one more hash gives for an epoch. -/
theorem get?_prune_upsert (buf : OrderedMap ℕ Bytes32) (tip epoch : ℕ) (hash : Bytes32) (e : ℕ) :
    (pruneSealWindow (buf.upsert epoch hash fun existing =>
      if hash < existing then hash else existing) tip).get? e =
      if tip < e ∨ e < windowFloor tip then Option.none
      else if e = epoch then
        some ((buf.get? epoch).elim hash fun existing => if hash < existing then hash else existing)
      else buf.get? e := by
  unfold pruneSealWindow
  dsimp only
  rw [OrderedMap.get?_popLastWhile, OrderedMap.get?_popFirstWhile, OrderedMap.get?_upsert]
  by_cases htip : tip < e
  · rw [if_pos htip, if_pos (.inl htip)]
  · rw [if_neg htip]
    change (if e < windowFloor tip then _ else _) = _
    by_cases hfloor : e < windowFloor tip
    · rw [if_pos hfloor, if_pos (Or.inr hfloor)]
    · rw [if_neg hfloor, if_neg (not_or_intro htip hfloor)]

/-- The smaller of a new hash and the one that is there is the smallest. -/
theorem elim_min (h : Holds buf tip seals) (hash : Bytes32) (hfloor : windowFloor tip ≤ epoch) :
    let new := (buf.get? epoch).elim hash fun existing => if hash < existing then hash else existing
    (epoch, new) ∈ insert (epoch, hash) seals ∧
      ∀ h', (epoch, h') ∈ insert (epoch, hash) seals → new ≤ h' := by
  cases hget : buf.get? epoch with
  | none =>
    refine ⟨.inl rfl, fun h' hmem => ?_⟩
    rcases hmem with heq | hmem
    · exact (Prod.mk.inj heq).2.ge
    · exact absurd hmem (h.none epoch h' hget hfloor)
  | some old =>
    obtain ⟨-, hold, hmin⟩ := h.least epoch old hget
    change (epoch, if hash < old then hash else old) ∈ _ ∧ ∀ h', _ → ite _ _ _ ≤ h'
    split_ifs with hlt
    · refine ⟨.inl rfl, fun h' hmem => ?_⟩
      rcases hmem with heq | hmem
      · exact (Prod.mk.inj heq).2.ge
      · exact hlt.le.trans (hmin h' hmem)
    · refine ⟨.inr hold, fun h' hmem => ?_⟩
      rcases hmem with heq | hmem
      · exact (not_lt.mp hlt).trans (Prod.mk.inj heq).2.ge
      · exact hmin h' hmem

/-- **One more hash**, while the tip may rise. -/
theorem upsert {tip' : ℕ} (h : Holds buf tip seals) (htip : tip ≤ tip')
    (hseals : ∀ e h', (e, h') ∈ seals → e ≤ tip') (hepoch : epoch ≤ tip')
    (hfloor : windowFloor tip' ≤ epoch) :
    Holds (pruneSealWindow (buf.upsert epoch hash fun existing =>
      if hash < existing then hash else existing) tip') tip' (insert (epoch, hash) seals) := by
  have hmono : windowFloor tip ≤ windowFloor tip' := Nat.sub_le_sub_right htip _
  have hnew := h.elim_min hash (hmono.trans hfloor)
  have hother : ∀ e h', e ≠ epoch → (e, h') ∈ insert (epoch, hash) seals → (e, h') ∈ seals :=
    fun e h' hne hmem => hmem.resolve_left fun heq => hne (Prod.mk.inj heq).1
  refine ⟨fun e h' hget => ?_, fun e h' hget hle hmem => ?_⟩
  · rw [get?_prune_upsert] at hget
    split_ifs at hget with hout heq
    · obtain rfl : _ = h' := Option.some.inj hget
      rw [heq]
      exact ⟨hfloor, hnew⟩
    · obtain ⟨-, hmem, hmin⟩ := h.least e h' hget
      exact ⟨not_lt.mp fun hlt => hout (.inr hlt), .inr hmem,
        fun h'' hmem' => hmin h'' (hother e h'' heq hmem')⟩
  · rw [get?_prune_upsert] at hget
    split_ifs at hget with hout heq
    · rcases hout with hout | hout
      · rcases hmem with heq | hmem
        · rw [(Prod.mk.inj heq).1] at hout
          omega
        · exact absurd (hseals e h' hmem) (not_le.mpr hout)
      · omega
    · exact h.none e h' hget (hmono.trans hle) (hother e h' heq hmem)

end Holds

/-! ### Windows of a state -/

variable {Time : Type}

theorem window_upsertSealWindow (s : EpochState Time) (zone : ZoneId) (epoch : ℕ)
    (recordHash : Bytes32) (z : ZoneId) :
    (s.upsertSealWindow zone epoch recordHash).window z =
      if z = zone ∧ windowFloor (s.tip zone) ≤ epoch ∧ epoch ≤ s.tip zone then
        pruneSealWindow ((s.window zone).upsert epoch recordHash fun existing =>
          if recordHash < existing then recordHash else existing) (s.tip zone)
      else s.window z := by
  unfold EpochState.upsertSealWindow EpochState.window
  dsimp only
  change Table.getD (if epoch < windowFloor (s.tip zone) ∨ s.tip zone < epoch then _ else _) z ∅ = _
  by_cases hout : epoch < windowFloor (s.tip zone) ∨ s.tip zone < epoch
  · rw [if_pos hout, if_neg]
    rintro ⟨-, hfloor, hle⟩
    omega
  · rw [if_neg hout, Table.getD_insert]
    by_cases hz : z = zone
    · rw [if_pos hz, if_pos ⟨hz, by omega, by omega⟩]
    · rw [if_neg hz, if_neg fun h => hz h.1]

def ofZone (seals : Set (ZoneId × ℕ × Bytes32)) (zone : ZoneId) : Set (ℕ × Bytes32) :=
  {p | (zone, p) ∈ seals}

/-- A state without pinned anchors that has exact windows for the seals registered so far. -/
structure Tracks (s : EpochState Time) (seals : Set (ZoneId × ℕ × Bytes32)) : Prop where
  unpinned : s.chainAnchors = []
  le_tip : ∀ z e h, (z, e, h) ∈ seals → e ≤ s.tip z
  tip_mem : ∀ z h, s.latestSealHash.lookup z = some h → (z, s.tip z, h) ∈ seals
  tip_attained : ∀ z, s.tip z = 0 ∨ ∃ h, (z, s.tip z, h) ∈ seals
  window : ∀ z, Holds (s.window z) (s.tip z) (ofZone seals z)

theorem ofZone_insert_self (seals : Set (ZoneId × ℕ × Bytes32)) (zone : ZoneId) (p : ℕ × Bytes32) :
    ofZone (insert (zone, p) seals) zone = insert p (ofZone seals zone) := by
  ext q
  simp [ofZone]

theorem ofZone_insert_ne {z zone : ZoneId} (h : z ≠ zone) (seals : Set (ZoneId × ℕ × Bytes32))
    (p : ℕ × Bytes32) : ofZone (insert (zone, p) seals) z = ofZone seals z := by
  ext q
  simp [ofZone, h]

namespace Tracks

variable {s : EpochState Time} {seals : Set (ZoneId × ℕ × Bytes32)}

theorem new : Tracks (.new [] : EpochState Time) ∅ where
  unpinned := rfl
  le_tip _ _ _ h := absurd h (Set.notMem_empty _)
  tip_mem _ _ h := nomatch h
  tip_attained _ := .inl rfl
  window _ := ⟨fun _ _ h => (nomatch h), fun _ _ _ _ h => absurd h (Set.notMem_empty _)⟩

/-- The windows after one more hash, in a state where the tip of its zone may have risen. -/
theorem window_upsert (h : Tracks s seals) {s' : EpochState Time} {zone : ZoneId} {epoch : ℕ}
    (hwindow : s'.window = s.window) (hother : ∀ z, z ≠ zone → s'.tip z = s.tip z)
    (htip : s.tip zone ≤ s'.tip zone) (hepoch : epoch ≤ s'.tip zone)
    (hrisen : s'.tip zone = s.tip zone ∨ s'.tip zone = epoch) (recordHash : Bytes32) (z : ZoneId) :
    Holds ((s'.upsertSealWindow zone epoch recordHash).window z) (s'.tip z)
      (ofZone (insert (zone, epoch, recordHash) seals) z) := by
  rw [window_upsertSealWindow, hwindow]
  by_cases hz : z = zone
  · subst hz
    rw [ofZone_insert_self]
    by_cases hfloor : windowFloor (s'.tip z) ≤ epoch
    · rw [if_pos ⟨rfl, hfloor, hepoch⟩]
      exact (h.window z).upsert htip (fun e h' hmem => (h.le_tip z e h' hmem).trans htip) hepoch
        hfloor
    · rw [if_neg fun hand => hfloor hand.2.1]
      -- the seal lies below the window, so it is not the tip
      have hsame : s'.tip z = s.tip z := hrisen.resolve_right fun heq => by
        unfold windowFloor at hfloor
        omega
      rw [hsame] at hfloor ⊢
      exact (h.window z).below (not_le.mp hfloor)
  · rw [if_neg fun hand => hz hand.1, ofZone_insert_ne hz, hother z hz]
    exact h.window z

/-- Registering a seal again adds nothing. -/
theorem insert_of_mem {p : ZoneId × ℕ × Bytes32} (h : Tracks s seals) (hp : p ∈ seals) :
    Tracks s (insert p seals) := by
  rwa [Set.insert_eq_of_mem hp]

/-- The windows do not depend on the rivals that are remembered. -/
theorem withOrphans (h : Tracks s seals) (siblings : Table (ZoneId × ℕ) (List Str)) :
    Tracks (s.withOrphans siblings) seals :=
  ⟨h.unpinned, h.le_tip, h.tip_mem, h.tip_attained, h.window⟩

end Tracks

/-! ### Super-seals -/

/-- A window holds all epochs of a super-seal that ends at the tip. -/
def completeWindow (buf : OrderedMap ℕ Bytes32) (tip : ℕ) : Bool :=
  buf.length = superSealInterval ∧ buf.firstKey? = some (windowFloor tip) ∧
    buf.lastKey? = some tip

theorem superSealWindowComplete_eq (s : EpochState Time) (zone : ZoneId) (tip : ℕ) :
    s.superSealWindowComplete zone tip = completeWindow (s.window zone) tip := by
  unfold EpochState.superSealWindowComplete EpochState.window Table.getD
  cases s.recentSealHashes.lookup zone with
  | none => rfl
  | some buf => rfl

/-- Without a tip the window has one epoch at most, so it is not complete. -/
theorem Holds.not_complete_zero {buf : OrderedMap ℕ Bytes32} {seals : Set (ℕ × Bytes32)}
    (h : Holds buf 0 seals) (hseals : ∀ e h', (e, h') ∈ seals → e ≤ 0) :
    completeWindow buf 0 = false := by
  have hkeys : ∀ e ∈ buf.entries, e.1 ≤ 0 := fun e he =>
    hseals e.1 e.2 (h.least e.1 e.2 (OrderedMap.get?_eq_some.mpr he)).2.1
  unfold completeWindow OrderedMap.length
  have hsorted := buf.sorted
  match hentries : buf.entries with
  | [] => rfl
  | [_] => rfl
  | a :: b :: rest =>
    rw [hentries] at hsorted hkeys
    have hlt := (List.pairwise_cons.mp hsorted).1 b List.mem_cons_self
    exact absurd (hkeys b (List.mem_cons_of_mem a List.mem_cons_self)) (by omega)

variable {seals : Set (ZoneId × ℕ × Bytes32)} {s : EpochState Time}

/-- The hashes for a super-seal are the values of a complete window. -/
theorem Tracks.snapshot_eq (h : Tracks s seals) (zone : ZoneId) : s.snapshotRecentSealHashes zone =
      if completeWindow (s.window zone) (s.tip zone) then some (s.window zone).values
      else none := by
  unfold EpochState.snapshotRecentSealHashes
  cases hepoch : s.latestEpoch.lookup zone with
  | none =>
    have htip : s.tip zone = 0 := by
      unfold EpochState.tip Table.getD
      rw [hepoch]
      rfl
    have hwindow := h.window zone
    rw [htip] at hwindow ⊢
    rw [hwindow.not_complete_zero fun e h' hmem => htip ▸ h.le_tip zone e h' hmem]
    rfl
  | some tip =>
    have htip : s.tip zone = tip := by
      unfold EpochState.tip Table.getD
      rw [hepoch]
      rfl
    change (if ¬ s.superSealWindowComplete zone tip then none
      else (s.recentSealHashes.lookup zone).bind fun buf => some buf.values) = _
    rw [superSealWindowComplete_eq, htip]
    by_cases hcomplete : completeWindow (s.window zone) tip
    · rw [if_neg (not_not_intro hcomplete), if_pos hcomplete]
      unfold EpochState.window Table.getD at hcomplete ⊢
      cases hlookup : s.recentSealHashes.lookup zone with
      | none =>
        rw [hlookup] at hcomplete
        exact absurd hcomplete Bool.false_ne_true
      | some buf => rfl
    · rw [if_pos hcomplete, if_neg hcomplete]

theorem Tracks.tip_le {s' : EpochState Time} {seals' : Set (ZoneId × ℕ × Bytes32)}
    (h : Tracks s seals) (h' : Tracks s' seals') {zone : ZoneId}
    (hsame : ofZone seals zone ⊆ ofZone seals' zone) : s.tip zone ≤ s'.tip zone := by
  rcases h.tip_attained zone with hzero | ⟨hash, hmem⟩
  · omega
  · exact h'.le_tip zone _ hash (hsame hmem)

/-! ### One call after another -/

variable [LinearOrder Time]

def place (t : ParsedEpochSeal Time × Bytes32) : ZoneId × ℕ × Bytes32 :=
  (t.1.zone, t.1.epochNumber, t.2)

/-- The seals that calls register, one call after another. -/
def registeredFrom (s : EpochState Time) : List (Call Time) → List (ZoneId × ℕ × Bytes32)
  | [] => []
  | c :: calls => ((s.registered c).map place).toList ++ registeredFrom (s.step c) calls

/-- The seals that a list of calls registers, without pinned anchors. -/
def registeredSeals (calls : List (Call Time)) : List (ZoneId × ℕ × Bytes32) :=
  registeredFrom (.new []) calls

namespace Tracks

variable {s : EpochState Time} {seals : Set (ZoneId × ℕ × Bytes32)}

theorem tip_install (s : EpochState Time) (t : ParsedEpochSeal Time) (recordId : Str)
    (recordHash : Bytes32) (z : ZoneId) :
    (s.install t recordId recordHash).tip z = if z = t.zone then t.epochNumber else s.tip z := by
  rw [← EpochState.tip_setTip s t.zone t.epochNumber recordId recordHash]
  exact congrArg (fun m => Table.getD m z 0) (EpochState.seedVrfRing_latestEpoch _ t recordHash)

theorem latestSealHash_install (s : EpochState Time) (t : ParsedEpochSeal Time) (recordId : Str)
    (recordHash : Bytes32) : (s.install t recordId recordHash).latestSealHash =
      s.latestSealHash.insert t.zone recordHash :=
  EpochState.seedVrfRing_latestSealHash _ t recordHash

theorem install (h : Tracks s seals) {t : ParsedEpochSeal Time}
    (hepoch : s.tip t.zone ≤ t.epochNumber) (recordId : Str) (recordHash : Bytes32) :
    Tracks (s.install t recordId recordHash)
      (insert (t.zone, t.epochNumber, recordHash) seals) where
  unpinned := (chainAnchors_install s t recordId recordHash).trans h.unpinned
  le_tip z e h' hmem := by
    rw [tip_install]
    rcases hmem with heq | hmem
    · obtain ⟨rfl, rfl, rfl⟩ : z = t.zone ∧ e = t.epochNumber ∧ h' = recordHash := by
        simpa using heq
      rw [if_pos rfl]
    · split_ifs with hz
      · exact (hz ▸ h.le_tip z e h' hmem).trans hepoch
      · exact h.le_tip z e h' hmem
  tip_mem z h' hlookup := by
    rw [latestSealHash_install, Table.lookup_insert_eq] at hlookup
    rw [tip_install]
    split_ifs at hlookup ⊢ with hz
    · rw [hz, Option.some.inj hlookup]
      exact .inl rfl
    · exact .inr (h.tip_mem z h' hlookup)
  tip_attained z := by
    rw [tip_install]
    split_ifs with hz
    · exact .inr ⟨recordHash, .inl (by rw [hz])⟩
    · exact (h.tip_attained z).imp_right fun ⟨h', hmem⟩ => ⟨h', .inr hmem⟩
  window z := by
    have hself := tip_install s t recordId recordHash t.zone
    rw [if_pos rfl] at hself
    have hwindow : ((s.setTip t.zone t.epochNumber recordId recordHash).seedVrfRing t
        recordHash).window = s.window :=
      funext fun z => congrArg (fun m => Table.getD m z ∅)
        (EpochState.seedVrfRing_recentSealHashes _ t recordHash)
    exact h.window_upsert hwindow
      (fun z hz => (tip_install s t recordId recordHash z).trans (if_neg hz))
      (hepoch.trans hself.ge) hself.ge (.inr hself) recordHash z

theorem registerLosing (h : Tracks s seals) {t : ParsedEpochSeal Time}
    (hepoch : t.epochNumber ≤ s.tip t.zone) (recordHash : Bytes32) :
    Tracks (s.registerLosing t recordHash)
      (insert (t.zone, t.epochNumber, recordHash) seals) := by
  have htip : ∀ z, (s.registerLosing t recordHash).tip z = s.tip z := fun z =>
    congrArg (fun m => Table.getD m z 0) (EpochState.seedVrfRing_latestEpoch _ t recordHash)
  have hhash : (s.registerLosing t recordHash).latestSealHash = s.latestSealHash :=
    EpochState.seedVrfRing_latestSealHash _ t recordHash
  refine ⟨(chainAnchors_registerLosing s t recordHash).trans h.unpinned, fun z e h' hmem => ?_,
    fun z h' hlookup => ?_, fun z => ?_, fun z => ?_⟩
  · rw [htip]
    rcases hmem with heq | hmem
    · obtain ⟨rfl, rfl, rfl⟩ : z = t.zone ∧ e = t.epochNumber ∧ h' = recordHash := by
        simpa using heq
      exact hepoch
    · exact h.le_tip z e h' hmem
  · rw [htip]
    exact .inr (h.tip_mem z h' (hhash ▸ hlookup))
  · rw [htip]
    exact (h.tip_attained z).imp_right fun ⟨h', hmem⟩ => ⟨h', .inr hmem⟩
  · rw [htip]
    have hwindow : (s.registerLosing t recordHash).window z =
        (s.upsertSealWindow t.zone t.epochNumber recordHash).window z :=
      congrArg (fun m => Table.getD m z ∅)
        (EpochState.seedVrfRing_recentSealHashes _ t recordHash)
    rw [hwindow]
    exact h.window_upsert rfl (fun _ _ => rfl) le_rfl hepoch (.inl rfl) recordHash z

end Tracks

def Call.isZoneSeal : Call Time → Bool
  | .registerGlobalSeal _ _ _ => false
  | _ => true

/-- One call: the windows stay exact. -/
theorem Tracks.step (h : Tracks s seals) {c : Call Time} (hc : c.isZoneSeal) :
    Tracks (s.step c) (seals ∪ {p | p ∈ ((s.registered c).map place).toList}) := by
  have hsome : ∀ {t : ParsedEpochSeal Time} {recordHash : Bytes32},
      s.registered c = some (t, recordHash) →
      seals ∪ {p | p ∈ ((s.registered c).map place).toList} =
        insert (t.zone, t.epochNumber, recordHash) seals := by
    intro t recordHash hregistered
    rw [hregistered, Set.union_comm]
    ext p
    simp [place]
  generalize hs' : s.step c = s'
  have houtcome := hs' ▸ step_outcome s c
  clear hs'
  cases houtcome with
  | refused hregistered hadmits _ =>
    exact absurd (EpochState.chainAnchorAdmits_of_nil h.unpinned _ _ _) hadmits
  | again hregistered hepoch hhash _ =>
    rw [hsome hregistered]
    exact h.insert_of_mem (hepoch ▸ h.tip_mem _ _ hhash)
  | idle hregistered _ =>
    rw [hregistered]
    simpa using h
  | canonical siblings hregistered hepoch hadmits _ =>
    rw [hsome hregistered]
    exact (h.install hepoch _ _).withOrphans siblings
  | losing siblings hregistered hepoch hloses =>
    rw [hsome hregistered]
    exact (h.registerLosing hepoch _).withOrphans siblings
  | escalated => exact absurd hc Bool.false_ne_true

theorem Tracks.run_from
    {calls : List (Call Time)} (h : Tracks s seals) (hcalls : ∀ c ∈ calls, c.isZoneSeal) :
    Tracks (calls.foldl EpochState.step s) (seals ∪ {p | p ∈ registeredFrom s calls}) := by
  induction calls generalizing s seals with
  | nil =>
    simpa [registeredFrom] using h
  | cons c calls ih =>
    have hstep := ih (h.step (hcalls c List.mem_cons_self))
      fun c' hc' => hcalls c' (List.mem_cons_of_mem c hc')
    rw [Set.union_assoc] at hstep
    have hlog : seals ∪ {p | p ∈ registeredFrom s (c :: calls)} =
        seals ∪ ({p | p ∈ ((s.registered c).map place).toList} ∪
          {p | p ∈ registeredFrom (s.step c) calls}) := by
      ext p
      simp [registeredFrom]
    rw [hlog]
    exact hstep

/-- **The windows are exact after every list of calls.** -/
theorem Tracks.run {calls : List (Call Time)} (hcalls : ∀ c ∈ calls, c.isZoneSeal) :
    Tracks (Epoch.run [] calls) {p | p ∈ registeredSeals calls} := by
  have h := Tracks.new.run_from hcalls
  rwa [Set.empty_union] at h

/-- **The window is a function of the registered seals**: it holds, for each epoch of the window
for which a seal was registered, the smallest hash, and calls that register the same seals of a
zone in any order, with any weights and promotions, give super-seals of the same hashes. -/
theorem window_of_registered (zone : ZoneId) (first second : List (Call Time))
    (hfirst : ∀ c ∈ first, c.isZoneSeal) (hsecond : ∀ c ∈ second, c.isZoneSeal)
    (hsame : ∀ e h, (zone, e, h) ∈ registeredSeals first ↔ (zone, e, h) ∈ registeredSeals second) :
    (∀ e h, ((run [] first).window zone).get? e = some h ↔
      windowFloor ((run [] first).tip zone) ≤ e ∧ e ≤ (run [] first).tip zone ∧
      (zone, e, h) ∈ registeredSeals first ∧
      ∀ h', (zone, e, h') ∈ registeredSeals first → h ≤ h') ∧
    (run [] first).window zone = (run [] second).window zone ∧
    (run [] first).snapshotRecentSealHashes zone =
      (run [] second).snapshotRecentSealHashes zone := by
  have htracks := Tracks.run hfirst
  have htracks' := Tracks.run hsecond
  have hzone : ofZone {p | p ∈ registeredSeals first} zone =
      ofZone {p | p ∈ registeredSeals second} zone := Set.ext fun p => hsame p.1 p.2
  have htip : (run [] first).tip zone = (run [] second).tip zone :=
    le_antisymm (htracks.tip_le htracks' hzone.subset) (htracks'.tip_le htracks hzone.superset)
  have hwindow : (run [] first).window zone = (run [] second).window zone := by
    have h := htracks.window zone
    rw [hzone, htip] at h
    exact h.unique (htracks'.window zone)
  refine ⟨fun e h => ?_, hwindow, ?_⟩
  · rw [(htracks.window zone).get?_eq_some_iff]
    refine ⟨fun ⟨hfloor, hmem, hmin⟩ => ⟨hfloor, htracks.le_tip zone e h hmem, hmem, hmin⟩,
      fun ⟨hfloor, _, hmem, hmin⟩ => ⟨hfloor, hmem, hmin⟩⟩
  · rw [htracks.snapshot_eq, htracks'.snapshot_eq, hwindow, htip]

section Sample

def zoneSeal (epoch : ℕ) : ParsedEpochSeal ℕ := ⟨⟨ZoneId.defaultPath⟩, epoch, epoch, none⟩

def hashOf (byte : UInt8) : Bytes32 := .filled byte 0

/-- Two epochs; in the second a seal of the smaller hash loses by weight and is promoted. -/
def promotedLate : List (Call ℕ) :=
  [.registerSeal (zoneSeal 1) (.text "a") (hashOf 5), .registerSeal (zoneSeal 2) (.text "b") (hashOf 3),
    .registerSealWithReconcile (zoneSeal 2) (.text "c") (hashOf 2) 1 5,
    .promoteOrphanToCanonical (zoneSeal 2) (.text "c") (hashOf 2)]

/-- The same seals in another order. -/
def reconciledFirst : List (Call ℕ) :=
  [.registerSealWithReconcile (zoneSeal 2) (.text "c") (hashOf 2) 0 0,
    .registerSeal (zoneSeal 1) (.text "a") (hashOf 5), .registerSeal (zoneSeal 2) (.text "b") (hashOf 3)]

theorem window_of_registered_promoted :
    (run [] promotedLate).window ⟨ZoneId.defaultPath⟩ =
      (run [] reconciledFirst).window ⟨ZoneId.defaultPath⟩ := by
  refine (window_of_registered ⟨ZoneId.defaultPath⟩ promotedLate reconciledFirst (by decide)
    (by decide) fun e h => ⟨fun hmem => ?_, fun hmem => ?_⟩).2.1
  · have hsub : ∀ p ∈ registeredSeals promotedLate, p ∈ registeredSeals reconciledFirst := by
      decide +kernel
    exact hsub _ hmem
  · have hsub : ∀ p ∈ registeredSeals reconciledFirst, p ∈ registeredSeals promotedLate := by
      decide +kernel
    exact hsub _ hmem

end Sample

end Epoch
end ElaraMesh
