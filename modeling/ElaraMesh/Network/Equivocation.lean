import ElaraMesh.Lib.OrderedMap
import ElaraMesh.Ledger.Records
import ElaraMesh.ZoneTree.CrossZone

/-!
# Conflicting seals

An epoch seal is stored with a row of an index, whose key is the epoch, the zone, the creator
and the identifier of the record, with a zero byte after the zone and after the creator.  The
worker that stored a seal then reads the rows that start with the epoch, the zone and the
creator, and reports the first one with another hash.  Several workers do so at the same time.

A zone may hold zero bytes itself.  A row may then start with the epoch, the zone and the
creator of another seal.

## Main results

* `evidence_iff` — all interleavings are sound and complete if and only if no row reads as one
  of another seal, and no row is replaced by the hash of a rival.
-/

namespace ElaraMesh.Equivocation

open Framing (bigEndian)
open Ledger (creatorIdentityHash)
open Record (Str ValidationRecord Unicode FloatFormat fromUtf8_bytes)
open Smt (Sha3 Bytes32)
open ZoneTree (ParsedEpochSeal extractEpochSeal)

/-! ### Rows -/

@[ext] structure RawKey where
  bytes : List UInt8
  deriving DecidableEq

instance : LinearOrder RawKey :=
  LinearOrder.lift' (fun k => k.bytes.map UInt8.toNat) fun _ _ h =>
    RawKey.ext (List.map_injective_iff.mpr (fun _ _ => UInt8.toNat_inj.mp) h)

/-- What the rows of one epoch, zone and creator start with. -/
def equivocationIndexStem (epoch : ℕ) (zonePath creator : List UInt8) : List UInt8 :=
  (Str.text "eqv:").bytes ++ bigEndian 8 epoch ++ zonePath ++ 0 :: creator ++ [0]

/-- The row of another record with another hash, if the row is read so. -/
def witnessOf (stem : List UInt8) (ownRecordId : Str) (ownHash : Bytes32) (row : RawKey × Bytes32) :
    Option (Str × Bytes32) :=
  match Str.fromUtf8 (row.1.bytes.drop stem.length) with
  | .error _ => none
  | .ok recordId =>
    if recordId = ownRecordId then none
    else if row.2 = ownHash then none
    else some (recordId, row.2)

/-- The walk over the rows that start with a stem. -/
def rowsFrom (rows : OrderedMap RawKey Bytes32) (stem : List UInt8) : List (RawKey × Bytes32) :=
  (rows.entries.dropWhile fun e => e.1 < ⟨stem⟩).takeWhile fun e => stem.isPrefixOf e.1.bytes

def findEquivocationWitness (rows : OrderedMap RawKey Bytes32) (epoch : ℕ)
    (zonePath creator : List UInt8) (ownRecordId : Str) (ownHash : Bytes32) :
    Option (Str × Bytes32) :=
  let stem := equivocationIndexStem epoch zonePath creator
  (rowsFrom rows stem).findSome? (witnessOf stem ownRecordId ownHash)

theorem not_lt_of_isPrefix {p l : List ℕ} (h : p <+: l) : ¬ l < p := by
  induction p generalizing l with
  | nil => exact List.not_lt_nil l
  | cons x p ih =>
    cases l with
    | nil => simp at h
    | cons y l =>
      obtain ⟨rfl, htail⟩ := List.cons_prefix_cons.mp h
      rw [List.cons_lt_cons_iff]
      rintro (hlt | ⟨-, hlt⟩)
      · exact lt_irrefl _ hlt
      · exact ih htail hlt

theorem isPrefix_of_between {p a b : List ℕ} (hp : ¬ a < p) (hab : ¬ b < a) (hb : p <+: b) :
    p <+: a := by
  induction p generalizing a b with
  | nil => exact List.nil_prefix
  | cons x p ih =>
    cases b with
    | nil => simp at hb
    | cons y b =>
      obtain ⟨rfl, htail⟩ := List.cons_prefix_cons.mp hb
      cases a with
      | nil => exact absurd (List.nil_lt_cons x p) hp
      | cons z a =>
        rw [List.cons_lt_cons_iff, not_or, not_and] at hp hab
        obtain rfl : z = x := by omega
        exact List.cons_prefix_cons.mpr ⟨rfl, ih (hp.2 rfl) (hab.2 rfl) htail⟩

theorem mem_rowsFrom {rows : OrderedMap RawKey Bytes32} {stem : List UInt8} {k : RawKey}
    {h : Bytes32} : (k, h) ∈ rowsFrom rows stem ↔ rows.get? k = some h ∧ stem <+: k.bytes := by
  have hmap : ∀ l : List UInt8, stem.map UInt8.toNat <+: l.map UInt8.toNat → stem <+: l := by
    intro l hl
    rw [List.prefix_iff_eq_take, List.length_map, ← List.map_take] at hl
    rw [List.map_injective_iff.mpr (fun _ _ => UInt8.toNat_inj.mp) hl]
    exact List.take_prefix _ _
  rw [OrderedMap.get?_eq_some]
  unfold rowsFrom
  rw [OrderedMap.mem_takeWhile_dropWhile ⟨stem⟩ (fun k => stem.isPrefixOf k.bytes) ?_ ?_ rows.sorted,
    List.isPrefixOf_iff_prefix]
  · intro k hk
    exact not_lt.mp (not_lt_of_isPrefix ((List.isPrefixOf_iff_prefix.mp hk).map _))
  · intro a b ha hab hb
    refine List.isPrefixOf_iff_prefix.mpr (hmap _ (isPrefix_of_between (not_lt.mpr ha)
      (not_lt.mpr hab) ((List.isPrefixOf_iff_prefix.mp hb).map _)))

theorem witnessOf_eq_some {stem : List UInt8} {own : Str} {ownHash h : Bytes32} {k : RawKey}
    (hstem : stem <+: k.bytes) {x : Str × Bytes32} :
    witnessOf stem own ownHash (k, h) = some x ↔
      k = ⟨stem ++ x.1.bytes⟩ ∧ h = x.2 ∧ x.1 ≠ own ∧ h ≠ ownHash := by
  obtain ⟨rest, hk⟩ := hstem
  unfold witnessOf
  rw [← hk, List.drop_left]
  constructor
  · intro hx
    split at hx
    · cases hx
    rename_i id hid
    split at hx
    · cases hx
    rename_i hother
    split at hx
    · cases hx
    rename_i hdiffer
    obtain rfl := Option.some.inj hx
    exact ⟨RawKey.ext (by rw [← hk, Str.bytes_fromUtf8 hid]), rfl, hother, hdiffer⟩
  · rintro ⟨rfl, rfl, hother, hdiffer⟩
    rw [List.append_cancel_left hk, fromUtf8_bytes]
    simp [hother, hdiffer]

/-! ### Seals -/

section Seals

variable [Unicode] [Sha3] [FloatFormat]

/-- A record that is an epoch seal. -/
structure Seal where
  record : ValidationRecord
  parsed : ParsedEpochSeal
  accepted : extractEpochSeal record = some parsed

namespace Seal

/-- The epoch, the zone and the creator. -/
def coords (r : Seal) : ℕ × List UInt8 × Str :=
  (r.parsed.epochNumber, r.parsed.zone.path, creatorIdentityHash r.record)

def hash (r : Seal) : Bytes32 := r.record.recordHash

/-- What the rows that compete with a seal start with. -/
def stem (r : Seal) : List UInt8 :=
  equivocationIndexStem r.parsed.epochNumber r.parsed.zone.path (creatorIdentityHash r.record).bytes

def key (r : Seal) : RawKey := ⟨r.stem ++ r.record.id.bytes⟩

def search (r : Seal) (rows : OrderedMap RawKey Bytes32) : Option (Str × Bytes32) :=
  findEquivocationWitness rows r.parsed.epochNumber r.parsed.zone.path
    (creatorIdentityHash r.record).bytes r.record.id r.hash

variable {r : Seal}

omit [FloatFormat] in
theorem stem_eq_of_coords {t : Seal} (h : r.coords = t.coords) : r.stem = t.stem := by
  obtain ⟨hepoch, hrest⟩ := Prod.mk.inj h
  obtain ⟨hzone, hcreator⟩ := Prod.mk.inj hrest
  rw [stem, stem, hepoch, hzone, hcreator]

theorem of_search_eq_some {rows : OrderedMap RawKey Bytes32} {x : Str × Bytes32}
    (h : r.search rows = some x) :
    rows.get? ⟨r.stem ++ x.1.bytes⟩ = some x.2 ∧ x.1 ≠ r.record.id ∧ x.2 ≠ r.hash := by
  obtain ⟨⟨k, h'⟩, hmem, hwitness⟩ := List.exists_of_findSome?_eq_some h
  obtain ⟨hrow, hstem⟩ := mem_rowsFrom.mp hmem
  obtain ⟨rfl, rfl, hother, hdiffer⟩ := (witnessOf_eq_some hstem).mp hwitness
  exact ⟨hrow, hother, hdiffer⟩

/-- A row of another record with another hash is found, or one before it. -/
theorem search_isSome {rows : OrderedMap RawKey Bytes32} (id : Str) {h : Bytes32}
    (hrow : rows.get? ⟨r.stem ++ id.bytes⟩ = some h) (hother : id ≠ r.record.id)
    (hdiffer : h ≠ r.hash) : (r.search rows).isSome = true := by
  rw [Option.isSome_iff_ne_none]
  intro hnone
  have hstem : r.stem <+: r.stem ++ id.bytes := List.prefix_append _ _
  have hat := List.findSome?_eq_none_iff.mp hnone _ (mem_rowsFrom.mpr ⟨hrow, hstem⟩)
  have hfound := (witnessOf_eq_some (x := (id, h)) hstem).mpr ⟨rfl, rfl, hother, hdiffer⟩
  exact nomatch hat.symm.trans hfound

end Seal

/-! ### Interleavings -/

/-- A worker writes the row of its seal, or searches for a rival. -/
inductive Event where
  | write (r : Seal) : Event
  | scan (r : Seal) : Event

structure State where
  rows : OrderedMap RawKey Bytes32
  stored : List Seal
  reports : List (Seal × Option (Str × Bytes32))

def step (s : State) : Event → State
  | .write r =>
    { s with
      rows := s.rows.upsert r.key r.hash fun _ => r.hash
      stored := s.stored ++ [r] }
  | .scan r => { s with reports := s.reports ++ [(r, r.search s.rows)] }

def runFrom (events : List Event) : State := events.foldl step ⟨∅, [], []⟩

/-- An interleaving of the ingests of some seals: a worker searches after it has written. -/
inductive Legal (seals : Set Seal) : List Event → Prop
  | nil : Legal seals []
  | write {events : List Event} {r : Seal} (h : Legal seals events) (hr : r ∈ seals) :
    Legal seals (events ++ [.write r])
  | scan {events : List Event} {r : Seal} (h : Legal seals events)
    (hr : Event.write r ∈ events) : Legal seals (events ++ [.scan r])

/-- A witness is a stored seal of the same epoch, zone and creator with another hash. -/
def Sound (s : State) : Prop :=
  ∀ r id h, (r, some (id, h)) ∈ s.reports →
    ∃ t ∈ s.stored, t.record.id = id ∧ t.hash = h ∧ t.coords = r.coords ∧ t.hash ≠ r.hash

/-- Of two rivals that were searched for, one has a witness. -/
def Complete (s : State) : Prop :=
  ∀ r t x y, (r, x) ∈ s.reports → (t, y) ∈ s.reports → r.coords = t.coords → r.hash ≠ t.hash →
    x.isSome ∨ y.isSome

/-- No row of a seal reads as a row of a seal elsewhere, unless the hashes are the same. -/
def Separate (seals : Set Seal) : Prop :=
  ∀ r ∈ seals, ∀ t ∈ seals, ∀ id : Str, t.key = ⟨r.stem ++ id.bytes⟩ → id ≠ r.record.id →
    t.hash ≠ r.hash → t.coords = r.coords

/-- The row of a seal is not replaced by the hash of a rival. -/
def Unreplaced (seals : Set Seal) : Prop :=
  ∀ r ∈ seals, ∀ t ∈ seals, ∀ u ∈ seals, r.coords = t.coords → r.hash ≠ t.hash → u.key = r.key →
    u.hash ≠ t.hash

/-! ### What a run keeps -/

structure Inv (seals : Set Seal) (s : State) : Prop where
  from_seals : ∀ t ∈ s.stored, t ∈ seals
  row_of_stored : ∀ t ∈ s.stored, (s.rows.get? t.key).isSome
  stored_of_row : ∀ k h, s.rows.get? k = some h → ∃ t ∈ s.stored, t.key = k ∧ t.hash = h
  reported : ∀ r x, (r, x) ∈ s.reports → r ∈ s.stored
  sound : Sound s
  complete : Complete s

theorem get?_write (s : State) (r : Seal) (k : RawKey) :
    (step s (.write r)).rows.get? k = if k = r.key then some r.hash else s.rows.get? k := by
  rw [step, OrderedMap.get?_upsert]
  cases s.rows.get? r.key <;> simp

variable {seals : Set Seal}

theorem Inv.write {s : State} (h : Inv seals s) {r : Seal} (hr : r ∈ seals) :
    Inv seals (step s (.write r)) := by
  have hstored : (step s (.write r)).stored = s.stored ++ [r] := rfl
  refine ⟨fun t ht => ?_, fun t ht => ?_, fun k h' hk => ?_, fun t x ht => ?_, fun t id h' ht => ?_,
    h.complete⟩
  · rcases List.mem_append.mp ht with ht | ht
    · exact h.from_seals t ht
    · rwa [List.mem_singleton.mp ht]
  · rw [get?_write]
    split
    · rfl
    · rename_i hne
      rcases List.mem_append.mp ht with ht | ht
      · exact h.row_of_stored t ht
      · exact absurd (congrArg Seal.key (List.mem_singleton.mp ht)) hne
  · rw [get?_write] at hk
    rw [hstored]
    split at hk
    · rename_i heq
      exact ⟨r, List.mem_append_right _ List.mem_cons_self, heq.symm, Option.some.inj hk⟩
    · obtain ⟨t, ht, hrow⟩ := h.stored_of_row k h' hk
      exact ⟨t, List.mem_append_left _ ht, hrow⟩
  · exact List.mem_append_left _ (h.reported t x ht)
  · obtain ⟨u, hu, hwitness⟩ := h.sound t id h' ht
    exact ⟨u, List.mem_append_left _ hu, hwitness⟩

/-- A search reports rightly, and misses no rival that was reported before. -/
theorem Inv.scan (hseparate : Separate seals) (hunreplaced : Unreplaced seals)
    {s : State} (h : Inv seals s) {r : Seal} (hr : r ∈ s.stored) : Inv seals (step s (.scan r)) := by
  have hcase : ∀ {t x}, (t, x) ∈ (step s (.scan r)).reports →
      (t, x) ∈ s.reports ∨ (t = r ∧ x = r.search s.rows) := by
    intro t x ht
    rcases List.mem_append.mp ht with ht | ht
    · exact Or.inl ht
    · exact Or.inr (Prod.mk.inj (List.mem_singleton.mp ht))
  have hstored : ∀ {t x}, (t, x) ∈ (step s (.scan r)).reports → t ∈ s.stored := by
    intro t x ht
    rcases hcase ht with ht | ⟨rfl, -⟩
    · exact h.reported t x ht
    · exact hr
  -- the row of a rival that is stored still has another hash
  have hfound : ∀ t ∈ s.stored, t.coords = r.coords → t.hash ≠ r.hash →
      (r.search s.rows).isSome = true := by
    intro t ht hcoords hhash
    obtain ⟨h', hrow⟩ := Option.isSome_iff_exists.mp (h.row_of_stored t ht)
    obtain ⟨u, hu, hkey, rfl⟩ := h.stored_of_row _ _ hrow
    have hstem := Seal.stem_eq_of_coords hcoords
    have hkept : ∀ u ∈ s.stored, u.key = t.key → u.hash ≠ r.hash := fun u hu hkey =>
      hunreplaced t (h.from_seals t ht) r (h.from_seals r hr) u (h.from_seals u hu) hcoords hhash hkey
    refine Seal.search_isSome t.record.id ?_ (fun hid => ?_) (hkept u hu hkey)
    · rw [← hrow, Seal.key, hstem]
    · refine hkept r hr ?_ rfl
      rw [Seal.key, Seal.key, hstem, hid]
  refine ⟨h.from_seals, h.row_of_stored, h.stored_of_row, fun t x ht => hstored ht, ?_, ?_⟩
  · intro t id h' ht
    rcases hcase ht with ht | ⟨rfl, hx⟩
    · exact h.sound t id h' ht
    · obtain ⟨hrow, hother, hdiffer⟩ := Seal.of_search_eq_some hx.symm
      obtain ⟨u, hu, hkey, hhash⟩ := h.stored_of_row _ _ hrow
      have hne : u.hash ≠ t.hash := hhash ▸ hdiffer
      have hcoords := hseparate t (h.from_seals t hr) u (h.from_seals u hu) id hkey hother hne
      refine ⟨u, hu, Str.bytes_injective ?_, hhash, hcoords, hne⟩
      have hbytes := congrArg RawKey.bytes hkey
      simp only [Seal.key, Seal.stem_eq_of_coords hcoords] at hbytes
      exact List.append_cancel_left hbytes
  · intro t u x y ht hu hcoords hhash
    rcases hcase ht with ht | ⟨rfl, rfl⟩
    · rcases hcase hu with hu | ⟨rfl, rfl⟩
      · exact h.complete t u x y ht hu hcoords hhash
      · exact Or.inr (hfound t (h.reported t x ‹_›) hcoords hhash)
    · exact Or.inl (hfound u (hstored hu) hcoords.symm hhash.symm)

theorem stored_runFrom (events : List Event) (r : Seal) :
    r ∈ (runFrom events).stored ↔ Event.write r ∈ events := by
  induction events using List.reverseRecOn with
  | nil => simp [runFrom]
  | append_singleton events e ih =>
    rw [runFrom, List.foldl_concat, ← runFrom]
    cases e with
    | write t => simp [step, ih]
    | scan t => simp [step, ih]

theorem runFrom_concat (events : List Event) (e : Event) :
    runFrom (events ++ [e]) = step (runFrom events) e := List.foldl_concat ..

theorem inv_runFrom (hseparate : Separate seals) (hunreplaced : Unreplaced seals)
    {events : List Event} (hlegal : Legal seals events) : Inv seals (runFrom events) := by
  induction hlegal with
  | nil =>
    exact ⟨fun _ h => (nomatch h), fun _ h => (nomatch h), fun _ _ h => (nomatch h),
      fun _ _ h => (nomatch h), fun _ _ _ h => (nomatch h), fun _ _ _ _ h => (nomatch h)⟩
  | write _ hr ih => exact runFrom_concat .. ▸ ih.write hr
  | scan _ hr ih =>
    exact runFrom_concat .. ▸ ih.scan hseparate hunreplaced ((stored_runFrom _ _).mpr hr)

/-! ### Runs that fail -/

/-- A row that reads as one of another seal is reported as its rival. -/
theorem separate_of_sound
    (h : ∀ events, Legal seals events → Sound (runFrom events)) : Separate seals := by
  intro r hr t ht id hkey hother hhash
  have hlegal : Legal seals [.write t, .write r, .scan r] :=
    ((Legal.nil.write ht).write hr).scan (by simp)
  let s := step (step ⟨∅, [], []⟩ (.write t)) (.write r)
  have hne : t.key ≠ r.key := by
    rw [hkey]
    intro heq
    exact hother (Str.bytes_injective (List.append_cancel_left (congrArg RawKey.bytes heq)))
  have hrow : s.rows.get? ⟨r.stem ++ id.bytes⟩ = some t.hash := by
    rw [← hkey, get?_write, if_neg hne, get?_write, if_pos rfl]
  obtain ⟨⟨id', h'⟩, hx⟩ := Option.isSome_iff_exists.mp (Seal.search_isSome id hrow hother hhash)
  have hreport : (r, some (id', h')) ∈ (runFrom [.write t, .write r, .scan r]).reports :=
    List.mem_singleton.mpr (by rewrite [← hx]; rfl)
  obtain ⟨u, hu, -, -, hcoords, hdiffer⟩ := h _ hlegal r id' h' hreport
  -- only the two seals are stored
  rcases List.mem_pair.mp (show u ∈ [t, r] from hu) with rfl | rfl
  · exact hcoords
  · exact absurd rfl hdiffer

/-- A row that was replaced by the hash of a rival hides the two from each other. -/
theorem unreplaced_of_complete
    (h : ∀ events, Legal seals events → Complete (runFrom events)) : Unreplaced seals := by
  intro r hr t ht u hu hcoords hhash hkey hsame
  have hlegal : Legal seals [.write r, .scan r, .write u, .write t, .scan t] :=
    ((((Legal.nil.write hr).scan (by simp)).write hu).write ht).scan (by simp)
  let s₁ := step ⟨∅, [], []⟩ (.write r)
  let s₂ := step (step (step s₁ (.scan r)) (.write u)) (.write t)
  have hfirst : r.search s₁.rows = none := by
    rw [Option.eq_none_iff_forall_ne_some]
    intro x hx
    obtain ⟨hrow, hother, -⟩ := Seal.of_search_eq_some hx
    rw [get?_write] at hrow
    split at hrow
    · rename_i heq
      exact hother (Str.bytes_injective (List.append_cancel_left (congrArg RawKey.bytes heq)))
    · cases hrow
  have hsecond : t.search s₂.rows = none := by
    rw [Option.eq_none_iff_forall_ne_some]
    intro x hx
    obtain ⟨hrow, -, hdiffer⟩ := Seal.of_search_eq_some hx
    rw [get?_write] at hrow
    split at hrow
    · exact hdiffer (Option.some.inj hrow).symm
    rw [get?_write] at hrow
    split at hrow
    · exact hdiffer ((Option.some.inj hrow).symm.trans hsame)
    · rename_i hne
      -- the only other row was that of the first seal
      rw [show (step s₁ (.scan r)).rows = s₁.rows from rfl, get?_write, ← hkey, if_neg hne] at hrow
      cases hrow
  have hreports : (runFrom [.write r, .scan r, .write u, .write t, .scan t]).reports =
      [(r, r.search s₁.rows), (t, t.search s₂.rows)] := rfl
  rw [hfirst, hsecond] at hreports
  have hfound := h _ hlegal r t none none (by simp [hreports]) (by simp [hreports]) hcoords hhash
  simp at hfound

/-- **The evidence.**  For every set of seals: in all interleavings of their ingests nobody is
accused wrongly and of two rivals one is reported, if and only if no row reads as one of
another seal and no row is replaced by the hash of a rival. -/
theorem evidence_iff (seals : Set Seal) :
    (∀ events, Legal seals events → Sound (runFrom events) ∧ Complete (runFrom events)) ↔
      Separate seals ∧ Unreplaced seals := by
  constructor
  · intro hall
    exact ⟨separate_of_sound fun events h => (hall events h).1,
      unreplaced_of_complete fun events h => (hall events h).2⟩
  · rintro ⟨hseparate, hunreplaced⟩ events hlegal
    have hinv := inv_runFrom hseparate hunreplaced hlegal
    exact ⟨hinv.sound, hinv.complete⟩

end Seals

/-! ### A zone with zero bytes -/

section Fixed

attribute [local instance] Smt.guardedSha3 Record.bitsFormat Record.asciiCase

/-- The record of a seal of the first epoch, by the holder of a key. -/
def sealRecord (id : String) (key : UInt8) (zone : Str) : ValidationRecord :=
  { Ledger.plainRecord id key 10 with
    metadata := [(.text "epoch_end", .number (.int 9)),
      (.text "epoch_merkle_root", .string (Str.hex (List.replicate 32 0))),
      (.text "epoch_number", .number (.int 1)), (.text "epoch_op", .string (.text "seal")),
      (.text "epoch_previous_seal", .string (Str.hex (List.replicate 32 0))),
      (.text "epoch_record_count", .number (.int 0)), (.text "epoch_start", .number (.int 0)),
      (.text "epoch_zone", .string zone)] }

/-- A zone whose path goes on with a zero byte, the holder of the first key and another one. -/
def nulZone : Str :=
  ((Str.text "a\x00").append (Record.sha3Hex [1])).append (.text "\x00b")

def sealOf (record : ValidationRecord) (h : (extractEpochSeal record).isSome = true) : Seal where
  record := record
  parsed := (extractEpochSeal record).get h
  accepted := (Option.some_get h).symm

/-- A seal of the zone `a` by the holder of the first key. -/
def honestSeal : Seal := sealOf (sealRecord "own" 1 (.text "a")) (by decide +kernel)

/-- A seal of the other zone by the holder of the second key. -/
def foreignSeal : Seal := sealOf (sealRecord "x" 2 nulZone) (by decide +kernel)

/-- The honest creator is accused on the record of the other one: it is the only other seal, and
of another zone and creator. -/
theorem honest_creator_accused :
    honestSeal.coords ≠ foreignSeal.coords ∧
    (runFrom [.write foreignSeal, .write honestSeal, .scan honestSeal]).reports.map
      (fun e => e.2.map Prod.snd) = [some foreignSeal.hash] := by
  refine ⟨?_, ?_⟩ <;> decide +kernel

end Fixed

end ElaraMesh.Equivocation
