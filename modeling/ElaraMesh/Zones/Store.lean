import ElaraMesh.Zones.Transition

/-!
# The store of pending transitions

A proposed transition collects the signatures of anchors, then waits in a dispute window in
which it may be vetoed.  When its effective epoch has come it is final, unless it was vetoed.

The store keeps the vetoes with the proposal, and it holds at most 1024 proposals: a new one
takes the place of the one that was proposed first.  A vetoed proposal that is pushed out is
forgotten with its vetoes, and whoever has the signed seal may propose it again.

## Main results

* `Doomed.step` — a vetoed proposal stays vetoed, or is gone when its epoch has come.
* `vetoed_never_finalized` — it is not finalized.
-/

namespace ElaraMesh.Zones

open Record (Str)
open Smt (Bytes32 Sha3)
open Framing (bigEndian decimal length_bigEndian netstring ofBigEndian)

def maxPendingTransitions : ℕ := 1024

def maxVetoEvidenceBytes : ℕ := 2048

def maxVetoReasonOtherBytes : ℕ := 256

def minVetoesToHalt : ℕ := 2

inductive VetoReason where
  | badBoundary
  | unauthorizedProposer
  | committeeDiversity
  | stateRootMismatch
  | other (text : Str)
  deriving DecidableEq

structure TransitionVeto where
  sealHash : Bytes32
  reason : VetoReason
  evidence : List UInt8
  submittedAtEpoch : ℕ
  vetoerIdentityHash : Bytes32
  dilithium3Sig : List UInt8
  sigDomain : Option UInt8
  deriving DecidableEq

inductive PendingStatus where
  | awaitingSigs
  | disputeWindow
  | vetoed
  | finalized
  | expired
  deriving DecidableEq

/-- Why a call is refused, with what the message names. -/
inductive StoreError where
  | badStructure (e : StructureError)
  | notFound
  | resolved (status : PendingStatus)
  | anchorSigned
  | sigEmpty
  | sigsFull
  | evidenceTooLarge (size : ℕ)
  | reasonTooLarge (size : ℕ)
  | vetoUnsigned
  | vetoMismatch
  | windowClosed
  | beforeProposal
  | vetoerKnown
  | alreadyVetoed
  deriving DecidableEq

def TransitionVeto.validateStructure (veto : TransitionVeto) : Except StoreError Unit :=
  if veto.evidence.length > maxVetoEvidenceBytes then
    .error (.evidenceTooLarge veto.evidence.length)
  else
    let reasonSize := match veto.reason with
      | .other text => text.len
      | _ => 0
    if reasonSize > maxVetoReasonOtherBytes then .error (.reasonTooLarge reasonSize)
    else if veto.dilithium3Sig = [] then .error .vetoUnsigned
    else .ok ()

structure PendingTransition where
  transition : TransitionSeal
  vetoes : List TransitionVeto
  status : PendingStatus
  id : Bytes32

/-- The pending transitions by their identifiers. -/
structure TransitionStore where
  byId : Table Bytes32 PendingTransition
  evictionsTotal : ℕ
  proposalsAcceptedTotal : ℕ

structure TickOutcome where
  newlyFinalized : List Bytes32
  newlyExpired : List Bytes32

/-- The first of the elements with the least key. -/
def minByKey {α : Type} (key : α → ℕ) : List α → Option α
  | [] => none
  | a :: rest => some (rest.foldl (fun best b => if key b < key best then b else best) a)

theorem minByKey_spec {α : Type} {key : α → ℕ} {l : List α} {a : α} (h : minByKey key l = some a) :
    a ∈ l ∧ ∀ b ∈ l, key a ≤ key b := by
  have hfold : ∀ (l : List α) (best : α),
      let m := l.foldl (fun best b => if key b < key best then b else best) best
      (m = best ∨ m ∈ l) ∧ key m ≤ key best ∧ ∀ b ∈ l, key m ≤ key b := by
    intro l
    induction l with
    | nil => exact fun best => ⟨.inl rfl, le_rfl, fun b hb => nomatch hb⟩
    | cons c l ih =>
      intro best
      obtain ⟨hmem, hbest, hall⟩ := ih (if key c < key best then c else best)
      rw [List.foldl_cons]
      refine ⟨?_, ?_, ?_⟩
      · rcases hmem with hmem | hmem
        · rw [hmem]
          split
          · exact .inr List.mem_cons_self
          · exact .inl rfl
        · exact .inr (List.mem_cons_of_mem c hmem)
      · refine hbest.trans ?_
        split <;> omega
      · intro b hb
        rcases List.mem_cons.mp hb with rfl | hb
        · refine hbest.trans ?_
          split <;> omega
        · exact hall b hb
  cases l with
  | nil => cases h
  | cons c l =>
    obtain ⟨hmem, hbest, hall⟩ := hfold l c
    cases h
    constructor
    · rcases hmem with heq | hmem
      · rw [heq]
        exact List.mem_cons_self
      · exact List.mem_cons_of_mem c hmem
    · intro b hb
      rcases List.mem_cons.mp hb with rfl | hb
      · exact hbest
      · exact hall b hb

section Store

variable [SealJson] [Sha3]

/-- A new entry; its status counts the signatures that the seal carries. -/
def PendingTransition.fromSeal (t : TransitionSeal) : PendingTransition where
  transition := t
  vetoes := []
  status := if t.proposerSigs.length ≥ t.requiredThreshold then .disputeWindow else .awaitingSigs
  id := t.sealHashForSig

namespace TransitionStore

def new : TransitionStore := ⟨∅, 0, 0⟩

/-- An entry with one more signature; enough of them open the dispute window. -/
def withSig (pending : PendingTransition) (sig : AnchorSig) : PendingTransition :=
  let sigs := (pending.transition.proposerSigs ++ [sig]).insertionSort fun a b =>
    a.anchorIdentityHash ≤ b.anchorIdentityHash
  let pending := { pending with transition := { pending.transition with proposerSigs := sigs } }
  if pending.status = .awaitingSigs ∧ sigs.length ≥ pending.transition.requiredThreshold then
    { pending with status := .disputeWindow }
  else pending

/-- Add the signature of an anchor to a pending proposal. -/
def addSig (s : TransitionStore) (id : Bytes32) (sig : AnchorSig) :
    Except StoreError (TransitionStore × PendingStatus) :=
  match s.byId.lookup id with
  | none => .error .notFound
  | some pending =>
    if pending.status ≠ .awaitingSigs ∧ pending.status ≠ .disputeWindow then
      .error (.resolved pending.status)
    else if pending.transition.proposerSigs.any
        (·.anchorIdentityHash = sig.anchorIdentityHash) then .error .anchorSigned
    else if sig.dilithium3Sig = [] then .error .sigEmpty
    else if pending.transition.proposerSigs.length ≥ maxProposerSigs then .error .sigsFull
    else
      .ok ({ s with byId := s.byId.insert id (withSig pending sig) }, (withSig pending sig).status)

/-- The store after an attempt to add a signature. -/
def tryAddSig (id : Bytes32) (s : TransitionStore) (sig : AnchorSig) : TransitionStore :=
  match s.addSig id sig with
  | .ok (s, _) => s
  | .error _ => s

/-- Where the store is full, drop the proposal that was made first. -/
def makeRoom [Iteration] (s : TransitionStore) : TransitionStore :=
  if s.byId.entries.length ≥ maxPendingTransitions then
    match minByKey (fun e => e.2.transition.proposedAtEpoch) (Iteration.walk s.byId) with
    | some (victimId, _) =>
      { s with
        byId := s.byId.erase victimId
        evictionsTotal := U64.satAdd s.evictionsTotal 1 }
    | none => s
  else s

/-- Insert a proposal, or add its signatures to the one that is there. -/
def insert [Iteration] (s : TransitionStore) (t : TransitionSeal) :
    Except StoreError (TransitionStore × Bytes32) :=
  match t.validateStructure with
  | .error e => .error (.badStructure e)
  | .ok _ =>
    let id := t.sealHashForSig
    if (s.byId.lookup id).isSome then .ok (t.proposerSigs.foldl (tryAddSig id) s, id)
    else
      let s := s.makeRoom
      .ok ({ s with
        byId := s.byId.insert id (PendingTransition.fromSeal t)
        proposalsAcceptedTotal := U64.satAdd s.proposalsAcceptedTotal 1 }, id)

/-- An entry with one more veto; enough of them halt the transition. -/
def withVeto (pending : PendingTransition) (veto : TransitionVeto) : PendingTransition :=
  let pending := { pending with vetoes := pending.vetoes ++ [veto] }
  if pending.vetoes.length ≥ minVetoesToHalt then { pending with status := .vetoed } else pending

def addVeto (s : TransitionStore) (id : Bytes32) (veto : TransitionVeto) (currentEpoch : ℕ) :
    Except StoreError TransitionStore :=
  match veto.validateStructure with
  | .error e => .error e
  | .ok _ =>
    match s.byId.lookup id with
    | none => .error .notFound
    | some pending =>
      if veto.sealHash ≠ id then .error .vetoMismatch
      else if currentEpoch ≥ pending.transition.effectiveEpoch then .error .windowClosed
      else if currentEpoch < pending.transition.proposedAtEpoch then .error .beforeProposal
      else if pending.vetoes.any (·.vetoerIdentityHash = veto.vetoerIdentityHash) then
        .error .vetoerKnown
      else if pending.status = .vetoed then .error .alreadyVetoed
      else .ok { s with byId := s.byId.insert id (withVeto pending veto) }

/-- The status of an entry when an epoch has come. -/
def statusAt (currentEpoch : ℕ) (pending : PendingTransition) : PendingStatus :=
  if currentEpoch < pending.transition.effectiveEpoch then pending.status
  else
    match pending.status with
    | .awaitingSigs => .expired
    | .disputeWindow => .finalized
    | status => status

/-- Resolve the entries whose epoch has come. -/
def tick [Iteration] (s : TransitionStore) (currentEpoch : ℕ) : TransitionStore × TickOutcome :=
  let due := (Iteration.walk s.byId).filter fun e =>
    e.2.transition.effectiveEpoch ≤ currentEpoch
  ({ s with byId := s.byId.mapValues fun p => { p with status := statusAt currentEpoch p } },
    ⟨(due.filter (·.2.status = .disputeWindow)).map Prod.fst,
      (due.filter (·.2.status = .awaitingSigs)).map Prod.fst⟩)

/-- Is an entry resolved? -/
def Terminal (status : PendingStatus) : Bool :=
  status = .vetoed || status = .finalized || status = .expired

/-- Remove the resolved entries some epochs after their effect; their number is returned. -/
def prune (s : TransitionStore) (currentEpoch retentionEpochs : ℕ) : TransitionStore × ℕ :=
  let kept := s.byId.retain fun _ p => !Terminal p.status ||
    decide (currentEpoch < U64.satAdd p.transition.effectiveEpoch retentionEpochs)
  ({ s with byId := kept }, s.byId.entries.length - kept.entries.length)

end TransitionStore

/-! ### Runs -/

inductive StoreCall where
  | insert (t : TransitionSeal)
  | addSig (id : Bytes32) (sig : AnchorSig)
  | addVeto (id : Bytes32) (veto : TransitionVeto) (currentEpoch : ℕ)
  | tick (currentEpoch : ℕ)
  | prune (currentEpoch retentionEpochs : ℕ)

/-- A store and the epoch of the last tick. -/
structure Clocked where
  store : TransitionStore
  epoch : ℕ

variable [Iteration]

/-- The store after a call; one that is refused changes nothing. -/
def Clocked.step (s : Clocked) : StoreCall → Clocked
  | .insert t => { s with store := ((s.store.insert t).toOption.map Prod.fst).getD s.store }
  | .addSig id sig => { s with store := s.store.tryAddSig id sig }
  | .addVeto id veto currentEpoch =>
    { s with store := (s.store.addVeto id veto currentEpoch).toOption.getD s.store }
  | .tick currentEpoch => ⟨(s.store.tick currentEpoch).1, currentEpoch⟩
  | .prune currentEpoch retentionEpochs =>
    { s with store := (s.store.prune currentEpoch retentionEpochs).1 }

def runStore (calls : List StoreCall) : Clocked := calls.foldl Clocked.step ⟨TransitionStore.new, 0⟩

/-- Only seals whose epoch lies ahead are inserted, and the ticks come in their order. -/
def Allowed (s : Clocked) : StoreCall → Prop
  | .insert t => s.epoch < t.effectiveEpoch
  | .tick currentEpoch => s.epoch ≤ currentEpoch
  | _ => True

def IsVetoed (s : TransitionStore) (id : Bytes32) : Prop :=
  ∃ p, s.byId.lookup id = some p ∧ p.status = .vetoed

/-- A call does not lose a vetoed transition whose epoch lies ahead. -/
def KeepsVetoed (s : Clocked) (call : StoreCall) : Prop :=
  ∀ id p, s.store.byId.lookup id = some p → p.status = .vetoed →
    s.epoch < p.transition.effectiveEpoch → ((s.step call).store.byId.lookup id).isSome

end Store

/-! ### What a call does to an entry -/

/-- Every entry was there before, with the same seal up to its signatures, and a veto is kept. -/
def Evolves (s s' : TransitionStore) : Prop :=
  ∀ id p', s'.byId.lookup id = some p' → ∃ p, s.byId.lookup id = some p ∧
    p'.transition.unsigned = p.transition.unsigned ∧
    (p.status = .vetoed → p'.status = .vetoed)

namespace Evolves

variable {s s' s'' : TransitionStore}

theorem refl (s : TransitionStore) : Evolves s s := fun _ p' h => ⟨p', h, rfl, id⟩

theorem trans (h : Evolves s s') (h' : Evolves s' s'') : Evolves s s'' := by
  intro id p'' hp''
  obtain ⟨p', hp', hseal', hveto'⟩ := h' id p'' hp''
  obtain ⟨p, hp, hseal, hveto⟩ := h id p' hp'
  exact ⟨p, hp, hseal'.trans hseal, hveto' ∘ hveto⟩

theorem replace {id : Bytes32} {p p' : PendingTransition} (hp : s.byId.lookup id = some p)
    (hseal : p'.transition.unsigned = p.transition.unsigned)
    (hveto : p.status = .vetoed → p'.status = .vetoed) :
    Evolves s { s with byId := s.byId.insert id p' } := by
  intro j q hq
  rw [Table.lookup_insert_eq] at hq
  split at hq
  · next hj =>
    cases hq
    exact ⟨p, hj ▸ hp, hseal, hveto⟩
  · exact ⟨q, hq, rfl, fun h => h⟩

theorem tryAddSig (s : TransitionStore) (id : Bytes32) (sig : AnchorSig) :
    Evolves s (s.tryAddSig id sig) := by
  unfold TransitionStore.tryAddSig TransitionStore.addSig
  cases hp : s.byId.lookup id with
  | none => exact refl s
  | some p =>
    dsimp only
    split_ifs with hresolved hsigned hempty hfull
    · exact refl s
    · exact refl s
    · exact refl s
    · exact refl s
    · refine replace hp ?_ fun hveto => ?_
      · unfold TransitionStore.withSig
        dsimp only
        split <;> rfl
      · -- A vetoed transition takes no signatures.
        exact absurd ⟨by simp [hveto], by simp [hveto]⟩ hresolved

theorem foldl_tryAddSig (s : TransitionStore) (id : Bytes32) (sigs : List AnchorSig) :
    Evolves s (sigs.foldl (TransitionStore.tryAddSig id) s) :=
  List.foldlRecOn sigs _ (refl s) fun s' h sig _ => h.trans (tryAddSig s' id sig)

theorem addVeto {id : Bytes32} {veto : TransitionVeto} {currentEpoch : ℕ}
    (h : s.addVeto id veto currentEpoch = .ok s') : Evolves s s' := by
  unfold TransitionStore.addVeto at h
  split at h
  · cases h
  cases hp : s.byId.lookup id with
  | none =>
    rw [hp] at h
    cases h
  | some p =>
    rw [hp] at h
    dsimp only at h
    split_ifs at h with hmismatch hclosed hbefore hknown hvetoed
    cases h
    refine replace hp ?_ fun hveto => absurd hveto hvetoed
    unfold TransitionStore.withVeto
    dsimp only
    split <;> rfl

theorem makeRoom [Iteration] (s : TransitionStore) : Evolves s s.makeRoom := by
  unfold TransitionStore.makeRoom
  split
  · split
    · intro id p' hp'
      rw [Table.lookup_erase_eq] at hp'
      split at hp'
      · cases hp'
      · exact ⟨p', hp', rfl, fun h => h⟩
    · exact refl s
  · exact refl s

theorem tick [Iteration] (s : TransitionStore) (currentEpoch : ℕ) :
    Evolves s (s.tick currentEpoch).1 := by
  intro id p' hp'
  obtain ⟨p, hp, rfl⟩ := Option.map_eq_some_iff.mp ((Table.lookup_mapValues _ _ id).symm.trans hp')
  refine ⟨p, hp, rfl, fun hveto => ?_⟩
  dsimp only [TransitionStore.statusAt]
  rw [hveto]
  split <;> rfl

theorem prune (s : TransitionStore) (currentEpoch retentionEpochs : ℕ) :
    Evolves s (s.prune currentEpoch retentionEpochs).1 := by
  intro id p' hp'
  exact ⟨p', (Table.lookup_retain.mp hp').1, rfl, fun h => h⟩

end Evolves

def Retains (s s' : TransitionStore) : Prop :=
  ∀ id, (s.byId.lookup id).isSome → (s'.byId.lookup id).isSome

theorem retains_insert {s s' : TransitionStore} {id : Bytes32} {p : PendingTransition}
    (h : s'.byId = s.byId.insert id p) : Retains s s' := by
  intro j hj
  rw [h, Table.lookup_insert_eq]
  split
  · rfl
  · exact hj

theorem retains_tryAddSig (s : TransitionStore) (id : Bytes32) (sig : AnchorSig) :
    Retains s (s.tryAddSig id sig) := by
  unfold TransitionStore.tryAddSig TransitionStore.addSig
  split
  next h =>
    split at h
    · cases h
    · split_ifs at h
      cases h
      exact retains_insert rfl
  · exact fun _ h => h

section Runs

variable [SealJson] [Sha3] [Iteration]

/-- What an insertion can do: change entries that are there, or add one. -/
theorem insert_cases (s : TransitionStore) (t : TransitionSeal) :
    Evolves s (((s.insert t).toOption.map Prod.fst).getD s) ∨
      (s.byId.lookup t.sealHashForSig = none ∧
        (((s.insert t).toOption.map Prod.fst).getD s).byId =
          s.makeRoom.byId.insert t.sealHashForSig (PendingTransition.fromSeal t)) := by
  unfold TransitionStore.insert
  split
  · exact .inl (Evolves.refl s)
  · dsimp only
    split
    · exact .inl (Evolves.foldl_tryAddSig s _ _)
    next hnew => exact .inr ⟨by simpa using hnew, rfl⟩

theorem step_cases (s : Clocked) (call : StoreCall) :
    Evolves s.store (s.step call).store ∨
      ∃ t, call = .insert t ∧ s.store.byId.lookup t.sealHashForSig = none ∧
        (s.step call).store.byId =
          s.store.makeRoom.byId.insert t.sealHashForSig (PendingTransition.fromSeal t) := by
  cases call with
  | insert t => exact (insert_cases s.store t).imp_right fun h => ⟨t, rfl, h⟩
  | addSig id sig => exact .inl (Evolves.tryAddSig s.store id sig)
  | addVeto id veto currentEpoch =>
    left
    unfold Clocked.step
    dsimp only
    cases h : s.store.addVeto id veto currentEpoch with
    | error e => exact Evolves.refl s.store
    | ok s' => exact Evolves.addVeto h
  | tick currentEpoch => exact .inl (Evolves.tick s.store currentEpoch)
  | prune currentEpoch retentionEpochs => exact .inl (Evolves.prune s.store _ _)

variable {s : Clocked} {seals : TransitionSeal → Prop}

theorem epoch_le_step {call : StoreCall} (h : Allowed s call) :
    s.epoch ≤ (s.step call).epoch := by
  cases call with
  | tick currentEpoch => exact h
  | _ => exact le_rfl

/-- The entries are those of seals that were inserted. -/
def Keyed (seals : TransitionSeal → Prop) (s : TransitionStore) : Prop :=
  ∀ id p, s.byId.lookup id = some p → ∃ t, seals t ∧ t.sealHashForSig = id ∧
    t.unsigned = p.transition.unsigned

theorem Keyed.step (h : Keyed seals s.store)
    {call : StoreCall} (hcall : ∀ t, call = .insert t → seals t) :
    Keyed seals (s.step call).store := by
  intro id p' hp'
  have hevolves : ∀ {s' : TransitionStore}, Evolves s.store s' → s'.byId.lookup id = some p' →
      ∃ t, seals t ∧ t.sealHashForSig = id ∧ t.unsigned = p'.transition.unsigned := by
    intro s' hs' hlookup
    obtain ⟨p, hp, hseal, -⟩ := hs' id p' hlookup
    obtain ⟨t, ht, hid, hunsigned⟩ := h id p hp
    exact ⟨t, ht, hid, hunsigned.trans hseal.symm⟩
  rcases step_cases s call with hstep | ⟨t, hinsert, -, hbyId⟩
  · exact hevolves hstep hp'
  · rw [hbyId, Table.lookup_insert_eq] at hp'
    split at hp'
    · next hid =>
      cases hp'
      exact ⟨t, hcall t hinsert, hid.symm, rfl⟩
    · exact hevolves (Evolves.makeRoom s.store) hp'

/-- A transition is vetoed, or it is gone and its epoch has come. -/
def Doomed (seals : TransitionSeal → Prop) (id : Bytes32) (s : Clocked) : Prop :=
  IsVetoed s.store id ∨
    (s.store.byId.lookup id = none ∧ ∀ t, seals t → t.sealHashForSig = id →
      t.effectiveEpoch ≤ s.epoch)

theorem Doomed.step (hhash : ∀ t t', seals t → seals t' → t.sealHashForSig = t'.sealHashForSig →
      t.unsigned = t'.unsigned)
    {id : Bytes32} (h : Doomed seals id s) (hkeyed : Keyed seals s.store)
    {call : StoreCall} (hcall : ∀ t, call = .insert t → seals t) (hallowed : Allowed s call)
    (hkeeps : KeepsVetoed s call) : Doomed seals id (s.step call) := by
  have hepoch := epoch_le_step hallowed
  rcases h with ⟨p, hp, hveto⟩ | ⟨hnone, hpast⟩
  · cases hp' : (s.step call).store.byId.lookup id with
    | some p' =>
      -- The entry is still there, and nothing takes its vetoes back.
      have hevolves : ∀ {s' : TransitionStore}, Evolves s.store s' →
          s'.byId.lookup id = some p' → p'.status = .vetoed := by
        intro s' hs' hlookup
        obtain ⟨q, hq, -, hkept⟩ := hs' id p' hlookup
        cases hp.symm.trans hq
        exact hkept hveto
      refine .inl ⟨p', hp', ?_⟩
      rcases step_cases s call with hstep | ⟨t, -, hfresh, hbyId⟩
      · exact hevolves hstep hp'
      · have hid : id ≠ t.sealHashForSig := fun heq => nomatch (heq ▸ hp).symm.trans hfresh
        rw [hbyId, Table.lookup_insert_eq, if_neg hid] at hp'
        exact hevolves (Evolves.makeRoom s.store) hp'
    | none =>
      -- It was lost, which is allowed only once its epoch has come.
      refine .inr ⟨hp', fun t ht hid => ?_⟩
      have hlate : p.transition.effectiveEpoch ≤ s.epoch := by
        by_contra hahead
        have hsome := hkeeps id p hp hveto (Nat.lt_of_not_le hahead)
        rw [hp'] at hsome
        cases hsome
      obtain ⟨t', ht', hid', hseal⟩ := hkeyed id p hp
      have hsame := (hhash t t' ht ht' (hid.trans hid'.symm)).trans hseal
      have heff : t.unsigned.effectiveEpoch = p.transition.unsigned.effectiveEpoch :=
        congrArg TransitionSeal.effectiveEpoch hsame
      exact heff.le.trans (hlate.trans hepoch)
  · refine .inr ⟨?_, fun t ht hid => (hpast t ht hid).trans hepoch⟩
    have hevolves : ∀ {s' : TransitionStore}, Evolves s.store s' → s'.byId.lookup id = none := by
      intro s' hs'
      cases hp' : s'.byId.lookup id with
      | none => rfl
      | some p' =>
        obtain ⟨p, hp, -⟩ := hs' id p' hp'
        exact nomatch hp.symm.trans hnone
    rcases step_cases s call with hstep | ⟨t, rfl, -, hbyId⟩
    · exact hevolves hstep
    · have hid : id ≠ t.sealHashForSig := fun heq =>
        absurd hallowed (Nat.not_lt.mpr (hpast t (hcall t rfl) heq.symm))
      rw [hbyId, Table.lookup_insert_eq, if_neg hid]
      exact hevolves (Evolves.makeRoom s.store)

theorem Doomed.not_finalized {id : Bytes32} (h : Doomed seals id s) (currentEpoch : ℕ) :
    id ∉ (s.store.tick currentEpoch).2.newlyFinalized := by
  intro hmem
  obtain ⟨e, he, rfl⟩ := List.mem_map.mp hmem
  obtain ⟨hdue, hstatus⟩ := List.mem_filter.mp he
  have hlookup := Iteration.mem_walk.mp (List.mem_of_mem_filter hdue)
  rcases h with ⟨p, hp, hveto⟩ | ⟨hnone, -⟩
  · cases hp.symm.trans hlookup
    rw [hveto] at hstatus
    exact absurd hstatus (by decide)
  · exact nomatch hlookup.symm.trans hnone

/-- **A vetoed transition is not finalized.**  In a run that inserts only seals whose epoch lies
ahead, whose ticks come in their order, and none of whose calls loses a vetoed transition
whose epoch lies ahead, no tick finalizes a transition that was vetoed at any time before. -/
theorem vetoed_never_finalized (calls : List StoreCall)
    (hhash : ∀ t t', .insert t ∈ calls → .insert t' ∈ calls →
      t.sealHashForSig = t'.sealHashForSig → t.unsigned = t'.unsigned)
    (hallowed : ∀ before call, before ++ [call] <+: calls → Allowed (runStore before) call)
    (hkeeps : ∀ before call, before ++ [call] <+: calls → KeepsVetoed (runStore before) call)
    (before between : List StoreCall) (currentEpoch : ℕ)
    (hpre : before ++ between ++ [.tick currentEpoch] <+: calls) (id : Bytes32)
    (hveto : IsVetoed (runStore before).store id) :
    id ∉ ((runStore (before ++ between)).store.tick currentEpoch).2.newlyFinalized := by
  have hmem : ∀ {l : List StoreCall} {call : StoreCall}, l ++ [call] <+: calls →
      ∀ t, call = .insert t → .insert t ∈ calls := fun hl t ht =>
    hl.subset (List.mem_append_right _ (ht ▸ List.mem_singleton_self _))
  have hkeyed : ∀ l, l <+: calls → Keyed (fun t => .insert t ∈ calls) (runStore l).store := by
    intro l
    induction l using List.reverseRecOn with
    | nil => exact fun _ id p hp => nomatch hp
    | append_singleton l call ih =>
      intro hl
      have hstep := (ih ((List.prefix_append l [call]).trans hl)).step (hmem hl)
      rwa [runStore, List.foldl_concat]
  have hdoomed : ∀ rest, before ++ rest <+: calls →
      Doomed (fun t => .insert t ∈ calls) id (runStore (before ++ rest)) := by
    intro rest
    induction rest using List.reverseRecOn with
    | nil =>
      intro _
      rw [List.append_nil]
      exact .inl hveto
    | append_singleton rest call ih =>
      intro hrest
      rw [← List.append_assoc] at hrest ⊢
      have hbefore := (List.prefix_append (before ++ rest) [call]).trans hrest
      have hstep := (ih hbefore).step hhash (hkeyed _ hbefore) (hmem hrest)
        (hallowed _ call hrest) (hkeeps _ call hrest)
      rwa [runStore, List.foldl_concat]
  exact (hdoomed between ((List.prefix_append _ _).trans hpre)).not_finalized currentEpoch

/-- Only an insertion into a full store and a pruning lose an entry. -/
theorem keepsVetoed_of_room {call : StoreCall}
    (hroom : ∀ t, call = .insert t → s.store.byId.entries.length < maxPendingTransitions)
    (hprune : ∀ e r, call ≠ .prune e r) : KeepsVetoed s call := by
  have hretains : Retains s.store (s.step call).store := by
    cases call with
    | insert t =>
      unfold Clocked.step TransitionStore.insert
      dsimp only
      split
      · exact fun _ h => h
      · split
        · exact List.foldlRecOn _ _ (fun _ h => h) fun s' h sig _ id hid =>
            retains_tryAddSig s' _ sig id (h id hid)
        · have hmakeRoom : s.store.makeRoom = s.store :=
            if_neg (Nat.not_le.mpr (hroom t rfl))
          exact retains_insert (by rw [hmakeRoom]; rfl)
    | addSig id sig => exact retains_tryAddSig s.store id sig
    | addVeto id veto currentEpoch =>
      unfold Clocked.step TransitionStore.addVeto
      dsimp only
      split
      · exact fun _ h => h
      · split
        · exact fun _ h => h
        · split_ifs
          · exact fun _ h => h
          · exact fun _ h => h
          · exact fun _ h => h
          · exact fun _ h => h
          · exact fun _ h => h
          · exact retains_insert rfl
    | tick currentEpoch =>
      intro id hid
      refine (congrArg Option.isSome (Table.lookup_mapValues _ _ id)).trans ?_
      rwa [Option.isSome_map]
    | prune e r => exact absurd rfl (hprune e r)
  intro id p hp _ _
  exact hretains id (hp ▸ rfl)

end Runs

section Flood

attribute [local instance] plainJson Smt.guardedSha3 Iteration.stored

/-- A zone whose name has two bytes. -/
def numbered (n : ℕ) : ZoneSnapshot :=
  ⟨⟨bigEndian 2 n⟩, Bytes32.zero, Str.empty, 0, Bytes32.zero⟩

/-- The proposal to split a zone, with `sigs` signatures. -/
def proposal (name epoch sigs : ℕ) : TransitionSeal where
  kind := .split
  effectiveEpoch := epoch + 3
  proposedAtEpoch := epoch
  parents := [numbered 0]
  children := [numbered name, numbered (name + 1)]
  splitKey := some Bytes32.zero
  proposerSigs := (List.range sigs).map fun i =>
    ⟨⟨bigEndian 32 i, length_bigEndian 32 i⟩, [0]⟩
  sigDomain := none

def target : TransitionSeal := proposal 1 1 4

def vetoBy (n : ℕ) : TransitionVeto :=
  ⟨target.sealHashForSig, .badBoundary, [], 1, ⟨bigEndian 32 n, length_bigEndian 32 n⟩, [0], none⟩

def vetoedCalls : List StoreCall :=
  [.insert target, .addVeto target.sealHashForSig (vetoBy 0) 1,
    .addVeto target.sealHashForSig (vetoBy 1) 1]

theorem vetoedCalls_status :
    ((runStore vetoedCalls).store.byId.lookup target.sealHashForSig).map
        (fun p => (p.status, p.transition.proposedAtEpoch)) = some (.vetoed, 1) ∧
      (runStore vetoedCalls).store.byId.keys = [target.sealHashForSig] := by
  decide +kernel

theorem vetoedCalls_isVetoed : IsVetoed (runStore vetoedCalls).store target.sealHashForSig := by
  obtain ⟨p, hp, hstatus⟩ := Option.map_eq_some_iff.mp vetoedCalls_status.1
  exact ⟨p, hp, (Prod.mk.inj hstatus).1⟩

/-- The vetoed proposal comes once more, and its epoch passes. -/
theorem vetoedCalls_not_finalized :
    IsVetoed (runStore vetoedCalls).store target.sealHashForSig ∧
      target.sealHashForSig ∉
        ((runStore (vetoedCalls ++ [.insert target])).store.tick 4).2.newlyFinalized := by
  refine ⟨vetoedCalls_isVetoed, vetoed_never_finalized
    (vetoedCalls ++ [.insert target] ++ [.tick 4]) ?_ ?_ ?_ vetoedCalls [.insert target] 4
    (List.prefix_refl _) _ vetoedCalls_isVetoed⟩
  · have htarget : ∀ t, .insert t ∈ vetoedCalls ++ [.insert target] ++ [.tick 4] → t = target := by
      intro t ht
      simpa [vetoedCalls] using ht
    intro t t' ht ht' _
    rw [htarget t ht, htarget t' ht']
  · have hpos : 0 < target.effectiveEpoch := Nat.succ_pos 3
    refine (Runs.forall_steps_cons_iff _ _ _).mpr ⟨hpos, ?_⟩
    refine (Runs.forall_steps_cons_iff _ _ _).mpr ⟨trivial, ?_⟩
    refine (Runs.forall_steps_cons_iff _ _ _).mpr ⟨trivial, ?_⟩
    refine (Runs.forall_steps_cons_iff _ _ _).mpr ⟨hpos, ?_⟩
    exact (Runs.forall_steps_cons_iff _ _ _).mpr ⟨Nat.zero_le 4, Runs.forall_steps_nil _⟩
  · have hroom : ∀ s : Clocked, s.store.byId.entries.length < maxPendingTransitions →
        ∀ call, (∀ e r, call ≠ .prune e r) → KeepsVetoed s call := fun s hs call hcall =>
      keepsVetoed_of_room (fun _ _ => hs) hcall
    refine (Runs.forall_steps_cons_iff _ _ _).mpr ⟨hroom _ (by decide) _ nofun, ?_⟩
    refine (Runs.forall_steps_cons_iff _ _ _).mpr ⟨hroom _ (by decide +kernel) _ nofun, ?_⟩
    refine (Runs.forall_steps_cons_iff _ _ _).mpr ⟨hroom _ (by decide +kernel) _ nofun, ?_⟩
    refine (Runs.forall_steps_cons_iff _ _ _).mpr ⟨hroom _ (by decide +kernel) _ nofun, ?_⟩
    exact (Runs.forall_steps_cons_iff _ _ _).mpr
      ⟨hroom _ (by decide +kernel) _ nofun, Runs.forall_steps_nil _⟩

def rival (n : ℕ) : TransitionSeal := proposal (n + 2) 2 0

/-- The name of a zone and its other fields, which are empty. -/
def zoneBytes (n : ℕ) : List UInt8 :=
  50 :: 58 :: UInt8.ofNat (n / 256) :: UInt8.ofNat n ::
    [44, 49, 58, 48, 44, 48, 58, 44, 49, 58, 48, 44, 49, 58, 48, 44]

def rivalBytes (n : ℕ) : List UInt8 :=
  [49, 58, 0, 44, 49, 58, 53, 44, 49, 58, 50, 44, 50, 48, 58] ++ (zoneBytes 0 ++
    ([44, 52, 48, 58] ++ (zoneBytes (n + 2) ++ (zoneBytes (n + 3) ++
      [44, 49, 58, 48, 44, 48, 58, 44, 48, 58, 44]))))

theorem netstring_of_length {l digits : List UInt8} {k : ℕ} (hlength : l.length = k)
    (hdigits : decimal k = digits) : netstring l = digits ++ 0x3a :: (l ++ [0x2c]) := by
  rw [netstring, hlength, hdigits]

theorem flatMap_fields_numbered (n : ℕ) : (numbered n).fields.flatMap netstring = zoneBytes n := by
  have hzero : netstring (decimal (ofBigEndian Bytes32.zero.data)) = [49, 58, 48, 44] := by
    decide +kernel
  have hempty : netstring Str.empty.bytes = [48, 58, 44] := by decide +kernel
  have hcount : netstring (decimal 0) = [49, 58, 48, 44] := by decide +kernel
  have hname : netstring (bigEndian 2 n) =
      50 :: 58 :: UInt8.ofNat (n / 256) :: UInt8.ofNat n :: [44] :=
    netstring_of_length (length_bigEndian 2 n) (by decide +kernel : decimal 2 = [50])
  simp only [ZoneSnapshot.fields, numbered, List.flatMap_cons, List.flatMap_nil, hzero, hempty,
    hcount, hname]
  rfl

theorem encode_rival (n : ℕ) : (rival n).canonicalEncodeForSig = rivalBytes n := by
  have hfields : (rival n).unsigned.fields = [[0], decimal 5, decimal 2, zoneBytes 0,
      zoneBytes (n + 2) ++ zoneBytes (n + 3), decimal (ofBigEndian Bytes32.zero.data), [], []] := by
    rw [← flatMap_fields_numbered, ← flatMap_fields_numbered, ← flatMap_fields_numbered,
      ← List.flatMap_append]
    rfl
  have hfront : netstring [0] ++ (netstring (decimal 5) ++ netstring (decimal 2)) =
      [49, 58, 0, 44, 49, 58, 53, 44, 49, 58, 50, 44] := by decide +kernel
  have hparent : netstring (zoneBytes 0) = 50 :: 48 :: 58 :: (zoneBytes 0 ++ [44]) :=
    netstring_of_length (l := zoneBytes 0) rfl (by decide +kernel : decimal 20 = [50, 48])
  have hchildren : netstring (zoneBytes (n + 2) ++ zoneBytes (n + 3)) =
      52 :: 48 :: 58 :: (zoneBytes (n + 2) ++ zoneBytes (n + 3) ++ [44]) :=
    netstring_of_length (l := zoneBytes (n + 2) ++ zoneBytes (n + 3)) rfl
      (by decide +kernel : decimal 40 = [52, 48])
  have hback : netstring (decimal (ofBigEndian Bytes32.zero.data)) ++ (netstring [] ++ netstring []) =
      [49, 58, 48, 44, 48, 58, 44, 48, 58, 44] := by decide +kernel
  have hsplit : (rival n).canonicalEncodeForSig =
      (netstring [0] ++ (netstring (decimal 5) ++ netstring (decimal 2))) ++
        (netstring (zoneBytes 0) ++ (netstring (zoneBytes (n + 2) ++ zoneBytes (n + 3)) ++
          (netstring (decimal (ofBigEndian Bytes32.zero.data)) ++ (netstring [] ++ netstring [])))) := by
    rw [TransitionSeal.canonicalEncodeForSig]
    refine (congrArg (List.flatMap netstring) hfields).trans ?_
    simp only [List.flatMap_cons, List.flatMap_nil, List.append_nil, List.append_assoc]
  rw [hsplit, hfront, hparent, hchildren, hback]
  simp [rivalBytes]

/-- The digests differ, also from that of the empty string. -/
theorem nodup_digests : (Keccak.number [] :: Keccak.number target.canonicalEncodeForSig ::
    (List.range 1024).map fun n => Keccak.number (rivalBytes n)).Nodup :=
  Keccak.nodup_of_apart (k := 256) (by decide +kernel)

variable {i n : ℕ} {s : Clocked}

theorem mem_digests_rival (hi : i < 1024) : Keccak.number (rivalBytes i) ∈
    (List.range 1024).map fun n => Keccak.number (rivalBytes n) :=
  List.mem_map_of_mem (List.mem_range.mpr hi)

theorem rival_ne_empty (hi : i < 1024) :
    Keccak.number (rival i).canonicalEncodeForSig ≠ Keccak.number [] := by
  rw [encode_rival]
  intro heq
  refine (List.nodup_cons.mp nodup_digests).1 (List.mem_cons_of_mem _ ?_)
  rw [← heq]
  exact mem_digests_rival hi

theorem rival_ne_target (hi : i < 1024) :
    (rival i).sealHashForSig ≠ target.sealHashForSig := by
  intro heq
  obtain ⟨hempty, hrest⟩ := List.nodup_cons.mp nodup_digests
  have htarget : Keccak.number target.canonicalEncodeForSig ≠ Keccak.number [] := fun h =>
    hempty (List.mem_cons.mpr (.inl h.symm))
  have hnumber := Smt.number_eq_of_guardedSha3_eq (rival_ne_empty hi) htarget heq
  rw [encode_rival] at hnumber
  refine (List.nodup_cons.mp hrest).1 ?_
  rw [← hnumber]
  exact mem_digests_rival hi

theorem rival_ne (hi : i < 1024) (hn : n < 1024) (hne : i ≠ n) :
    (rival i).sealHashForSig ≠ (rival n).sealHashForSig := by
  intro heq
  have hnumber := Smt.number_eq_of_guardedSha3_eq (rival_ne_empty hi) (rival_ne_empty hn) heq
  rw [encode_rival, encode_rival] at hnumber
  have hnodup := (List.nodup_cons.mp (List.nodup_cons.mp nodup_digests).2).2
  exact hne (List.inj_on_of_nodup_map hnodup (List.mem_range.mpr hi) (List.mem_range.mpr hn) hnumber)

/-- A new proposal takes the place that the store makes for it. -/
theorem insert_proposal {name epoch sigs : ℕ} (hsigs : sigs ≤ 32) (hepoch : epoch < 2000)
    (hnew : s.store.byId.lookup (proposal name epoch sigs).sealHashForSig = none) :
    (s.step (.insert (proposal name epoch sigs))).store.byId =
      s.store.makeRoom.byId.insert (proposal name epoch sigs).sealHashForSig
        (PendingTransition.fromSeal (proposal name epoch sigs)) := by
  have hvalid : (proposal name epoch sigs).validateStructure = .ok () := by
    have hwindow : ¬ (U64.satAdd (proposal name epoch sigs).proposedAtEpoch
        transitionDisputeWindowEpochs ≠ (proposal name epoch sigs).effectiveEpoch) :=
      not_not.mpr (if_pos (show epoch + 3 ≤ U64.max by unfold U64.max; omega))
    have hlength : ¬ ((proposal name epoch sigs).proposerSigs.length > maxProposerSigs) := by
      simpa [proposal, maxProposerSigs] using hsigs
    unfold TransitionSeal.validateStructure
    rw [if_neg hwindow, if_neg hlength]
    rfl
  unfold Clocked.step TransitionStore.insert
  dsimp only
  rw [hvalid]
  dsimp only
  rw [hnew]
  rfl

/-- The vetoed proposal and some later ones. -/
structure Flooded (n : ℕ) (s : TransitionStore) : Prop where
  length_eq : s.byId.entries.length = n + 1
  oldest : ∃ p, s.byId.lookup target.sealHashForSig = some p ∧ p.transition.proposedAtEpoch = 1
  later : ∀ id p, s.byId.lookup id = some p → id ≠ target.sealHashForSig →
    p.transition.proposedAtEpoch = 2
  fresh : ∀ i ≥ n, i < 1024 → s.byId.lookup (rival i).sealHashForSig = none

theorem flooded_zero : Flooded 0 (runStore vetoedCalls).store := by
  obtain ⟨hstatus, hkeys⟩ := vetoedCalls_status
  have hother : ∀ id, id ≠ target.sealHashForSig →
      (runStore vetoedCalls).store.byId.lookup id = none := by
    intro id hid
    rw [AList.lookup_eq_none, AList.mem_keys, hkeys, List.mem_singleton]
    exact hid
  obtain ⟨p, hp, hproposed⟩ := Option.map_eq_some_iff.mp hstatus
  refine ⟨?_, ⟨p, hp, (Prod.mk.inj hproposed).2⟩, ?_, ?_⟩
  · have hlength := congrArg List.length hkeys
    rwa [AList.keys, List.keys, List.length_map] at hlength
  · intro id p hp hid
    rw [hother id hid] at hp
    cases hp
  · intro i _ hi
    exact hother _ (rival_ne_target hi)

theorem Flooded.step (h : Flooded n s.store) (hn : n + 1 < maxPendingTransitions) :
    Flooded (n + 1) (s.step (.insert (rival n))).store := by
  have hlt : n < 1024 := by unfold maxPendingTransitions at hn; omega
  have hfresh := h.fresh n le_rfl hlt
  have hroom : s.store.makeRoom = s.store :=
    if_neg (Nat.not_le.mpr (h.length_eq.trans_lt hn))
  have hbyId : (s.step (.insert (rival n))).store.byId = s.store.makeRoom.byId.insert
      (rival n).sealHashForSig (PendingTransition.fromSeal (rival n)) :=
    insert_proposal (by omega) (by omega) hfresh
  rw [hroom] at hbyId
  obtain ⟨p, hp, hproposed⟩ := h.oldest
  refine ⟨?_, ⟨p, ?_, hproposed⟩, ?_, ?_⟩
  · refine (congrArg (fun t => t.entries.length) hbyId).trans ?_
    rw [AList.entries_insert_of_notMem (AList.lookup_eq_none.mp hfresh), List.length_cons,
      h.length_eq]
  · refine (congrArg (AList.lookup _) hbyId).trans ?_
    rw [Table.lookup_insert_eq, if_neg (rival_ne_target hlt).symm]
    exact hp
  · intro id q hq hid
    have hq' := (congrArg (AList.lookup id) hbyId).symm.trans hq
    rw [Table.lookup_insert_eq] at hq'
    split at hq'
    · cases hq'
      rfl
    · exact h.later id q hq' hid
  · intro i hi hi'
    refine (congrArg (AList.lookup _) hbyId).trans ?_
    rw [Table.lookup_insert_eq, if_neg (rival_ne hi' hlt (by omega))]
    exact h.fresh i (Nat.le_of_succ_le hi) hi'

/-- A full store drops the vetoed proposal for a new one. -/
theorem Flooded.overflow (h : Flooded n s.store) (hn : n + 1 = maxPendingTransitions) :
    (s.step (.insert (rival n))).store.byId.lookup target.sealHashForSig = none := by
  have hlt : n < 1024 := by unfold maxPendingTransitions at hn; omega
  have hbyId : (s.step (.insert (rival n))).store.byId = s.store.makeRoom.byId.insert
      (rival n).sealHashForSig (PendingTransition.fromSeal (rival n)) :=
    insert_proposal (by omega) (by omega) (h.fresh n le_rfl hlt)
  obtain ⟨p, hp, hproposed⟩ := h.oldest
  have hgone : s.store.makeRoom.byId.lookup target.sealHashForSig = none := by
    unfold TransitionStore.makeRoom
    rw [if_pos (h.length_eq.trans hn).ge]
    cases hvictim : minByKey (fun e => e.2.transition.proposedAtEpoch)
        (Iteration.walk s.store.byId) with
    | none =>
      have hmem := Iteration.mem_walk.mpr hp
      cases hwalk : Iteration.walk s.store.byId with
      | nil =>
        rw [hwalk] at hmem
        cases hmem
      | cons e rest =>
        rw [hwalk] at hvictim
        cases hvictim
    | some victim =>
      -- The vetoed proposal was made first, so it is the one that goes.
      obtain ⟨hmem, hleast⟩ := minByKey_spec hvictim
      have hoff : victim.2.transition.proposedAtEpoch ≤ 1 :=
        (hleast _ (Iteration.mem_walk.mpr hp)).trans hproposed.le
      have hid : victim.1 = target.sealHashForSig := by
        by_contra hne
        have htwo := h.later victim.1 victim.2 (Iteration.mem_walk.mp hmem) hne
        omega
      dsimp only
      rw [Table.lookup_erase_eq, if_pos hid.symm]
  refine (congrArg (AList.lookup _) hbyId).trans ?_
  rw [Table.lookup_insert_eq, if_neg (rival_ne_target hlt).symm]
  exact hgone

/-- The run: the vetoed proposal, as many later ones as push it out, and the proposal again. -/
def floodCalls : List StoreCall :=
  vetoedCalls ++ (List.range 1024).map (fun n => .insert (rival n)) ++ [.insert target]

theorem runStore_concat (calls : List StoreCall) (call : StoreCall) :
    runStore (calls ++ [call]) = (runStore calls).step call := by
  unfold runStore
  rw [List.foldl_concat]

theorem flooded (hn : n < maxPendingTransitions) :
    Flooded n (runStore (vetoedCalls ++ (List.range n).map (fun n => .insert (rival n)))).store := by
  induction n with
  | zero =>
    rw [List.range_zero, List.map_nil, List.append_nil]
    exact flooded_zero
  | succ n ih =>
    rw [List.range_succ, List.map_append, ← List.append_assoc, List.map_singleton, runStore_concat]
    exact (ih (Nat.lt_of_succ_lt hn)).step hn

theorem flooded_out :
    (runStore (vetoedCalls ++ (List.range 1024).map
      (fun n => .insert (rival n)))).store.byId.lookup target.sealHashForSig = none := by
  have hfull := flooded (n := 1023) (by decide)
  rw [List.range_succ, List.map_append, ← List.append_assoc, List.map_singleton, runStore_concat]
  exact hfull.overflow rfl

/-- A proposal that the store does not know comes back without its vetoes. -/
theorem target_returns (hgone : s.store.byId.lookup target.sealHashForSig = none) :
    target.sealHashForSig ∈ ((s.step (.insert target)).store.tick 4).2.newlyFinalized := by
  have hbyId : (s.step (.insert target)).store.byId = s.store.makeRoom.byId.insert
      target.sealHashForSig (PendingTransition.fromSeal target) :=
    insert_proposal (by decide) (by decide) hgone
  have hback : (s.step (.insert target)).store.byId.lookup target.sealHashForSig =
      some (PendingTransition.fromSeal target) := by
    rw [hbyId, Table.lookup_insert_eq, if_pos rfl]
  exact List.mem_map.mpr ⟨_, List.mem_filter.mpr ⟨List.mem_filter.mpr
    ⟨Iteration.mem_walk.mpr hback, rfl⟩, rfl⟩, rfl⟩

/-- No time passes while proposals come. -/
theorem epoch_runStore {calls : List StoreCall} (h : ∀ e, .tick e ∉ calls) :
    (runStore calls).epoch = 0 := by
  have hnew : (⟨TransitionStore.new, 0⟩ : Clocked).epoch = 0 := rfl
  refine List.foldlRecOn calls Clocked.step (motive := fun s => s.epoch = 0) hnew ?_
  intro s hs call hcall
  cases call with
  | tick e => exact absurd hcall (h e)
  | _ => exact hs

theorem mem_floodCalls {call : StoreCall} (h : call ∈ floodCalls) :
    (∃ t, call = .insert t ∧ 0 < t.effectiveEpoch) ∨ ∃ id veto e, call = .addVeto id veto e := by
  rcases List.mem_append.mp h with h | h
  · rcases List.mem_append.mp h with h | h
    · simp only [vetoedCalls, List.mem_cons, List.not_mem_nil, or_false] at h
      rcases h with rfl | rfl | rfl
      · exact .inl ⟨_, rfl, Nat.succ_pos _⟩
      · exact .inr ⟨_, _, _, rfl⟩
      · exact .inr ⟨_, _, _, rfl⟩
    · obtain ⟨n, -, rfl⟩ := List.mem_map.mp h
      exact .inl ⟨_, rfl, Nat.succ_pos _⟩
  · rw [List.mem_singleton.mp h]
    exact .inl ⟨_, rfl, Nat.succ_pos _⟩

theorem flood_finalized :
    (∀ before call, before ++ [call] <+: floodCalls ++ [.tick 4] →
      Allowed (runStore before) call) ∧
    IsVetoed (runStore vetoedCalls).store target.sealHashForSig ∧
    target.sealHashForSig ∈ ((runStore floodCalls).store.tick 4).2.newlyFinalized := by
  refine ⟨?_, vetoedCalls_isVetoed, ?_⟩
  · intro before call hpre
    have hearly : ∀ {l}, l <+: floodCalls → (runStore l).epoch = 0 := by
      intro l hl
      refine epoch_runStore fun e he => ?_
      rcases mem_floodCalls (hl.subset he) with ⟨t, ht, -⟩ | ⟨id, veto, e', hveto⟩
      · cases ht
      · cases hveto
    rcases List.prefix_concat_iff.mp hpre with heq | hpre
    · obtain ⟨rfl, hcall⟩ := List.append_inj' heq rfl
      rw [List.singleton_inj.mp hcall]
      exact (hearly (List.prefix_refl _)).trans_le (Nat.zero_le 4)
    · have hzero := hearly ((List.prefix_append before [call]).trans hpre)
      rcases mem_floodCalls (hpre.subset (List.mem_append_right _ (List.mem_singleton_self _)))
        with ⟨t, rfl, ht⟩ | ⟨id, veto, e, rfl⟩
      · exact hzero.trans_lt ht
      · trivial
  · unfold floodCalls
    rw [runStore_concat]
    exact target_returns flooded_out

end Flood

end ElaraMesh.Zones
