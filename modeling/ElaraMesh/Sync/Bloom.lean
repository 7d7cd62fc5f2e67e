import ElaraMesh.Lib.Bitmap
import ElaraMesh.Lib.F64
import ElaraMesh.Lib.Framing
import ElaraMesh.Lib.U64
import ElaraMesh.Smt.Hash

/-!
# The filter of a delta sync

A peer says which records it has by a filter of bits.  An item stands for the bits at a few
positions, which are two halves of its hash combined; inserting it sets them, and it is taken to
be there if they are all set.  What would be a panic of the code is `none` here.

## Main results

* `BloomFilter.contains_eq`, `BloomFilter.insert_spec` — what is read and what is set.
* `BloomFilter.fromBytes_toBytes` — a filter that is sent is read back.
* `BloomFilter.no_false_negatives` — what was inserted is found, and no filter from a peer fails.
-/

namespace ElaraMesh.Sync

open Framing (bigEndian ofBigEndian length_bigEndian ofBigEndian_bigEndian)
open Smt (Sha3 sha3_256)

/-- The operations of floats that only the size of a new filter depends on. -/
class FilterMath where
  ln : F64 → F64
  powi : F64 → ℤ → F64

/-- A set of items by their bits. -/
@[ext] structure BloomFilter where
  bits : List UInt64
  numBits : ℕ
  numHashes : UInt32
  deriving DecidableEq

/-- The most positions of an item. -/
def bloomMaxHashes : UInt32 := 32

def clamp (lo hi x : UInt32) : UInt32 := if x < lo then lo else if hi < x then hi else x

def ceil (x : F64) : F64 := x.neg.floor.neg

/-- The number of bits for a number of items and a rate of false positives. -/
def optimalNumBits [FilterMath] (n : ℕ) (p : F64) : ℕ :=
  let m := ((F64.ofNat n).mul (FilterMath.ln p)).neg.div
    (FilterMath.powi (FilterMath.ln (F64.ofNat 2)) 2)
  max ((ceil m).toNat U64.max) 64

/-- The number of positions of an item. -/
def optimalNumHashes [FilterMath] (m n : ℕ) : UInt32 :=
  let k := ((F64.ofNat m).div (F64.ofNat n)).mul (FilterMath.ln (F64.ofNat 2))
  clamp 1 bloomMaxHashes (UInt32.ofNat ((ceil k).toNat (2 ^ 32 - 1)))

/-- Two halves of the hash of an item, the second of them positive. -/
def doubleHash [Sha3] (item : List UInt8) : UInt64 × UInt64 :=
  let hash := (sha3_256 item).data
  (UInt64.ofNat (ofBigEndian (hash.take 8)),
    max (UInt64.ofNat (ofBigEndian ((hash.drop 8).take 8))) 1)

/-- A position, in 128 bits; there is none if the sum overflows or there are no bits. -/
def combinedHash (h1 h2 : UInt64) (i numBits : ℕ) : Option ℕ :=
  let sum := h1.toNat + i * h2.toNat
  if U128.max < sum ∨ numBits = 0 then none else some (sum % numBits)

/-- Why bytes are no filter. -/
inductive BloomError where
  | tooShort
  | invalidHeader (numBits : ℕ) (numHashes : UInt32)
  | dataTooShort (need got : ℕ)
  deriving DecidableEq

namespace BloomFilter

def new [FilterMath] (expectedItems : ℕ) (fpRate : F64) : BloomFilter :=
  let numBits := optimalNumBits (max expectedItems 1) fpRate
  { bits := List.replicate ((numBits + 63) / 64) 0
    numBits
    numHashes := optimalNumHashes numBits (max expectedItems 1) }

def setBit (f : BloomFilter) (idx : ℕ) : Option BloomFilter :=
  f.bits[idx / 64]?.map fun word =>
    { f with bits := f.bits.set (idx / 64) (word ||| Bitmap.mask idx) }

def insert [Sha3] (f : BloomFilter) (item : List UInt8) : Option BloomFilter :=
  let (h1, h2) := doubleHash item
  (List.range f.numHashes.toNat).foldlM (fun f i => do
    let idx ← combinedHash h1 h2 i f.numBits
    f.setBit idx) f

def contains [Sha3] (f : BloomFilter) (item : List UInt8) : Option Bool :=
  let (h1, h2) := doubleHash item
  (List.range f.numHashes.toNat).allM fun i => do
    let idx ← combinedHash h1 h2 i f.numBits
    let word ← f.bits[idx / 64]?
    pure (word &&& Bitmap.mask idx ≠ 0)

/-- The number of bits is cut to 32 bits. -/
def toBytes (f : BloomFilter) : List UInt8 :=
  bigEndian 4 f.numBits ++ bigEndian 4 f.numHashes.toNat ++
    f.bits.flatMap fun word => bigEndian 8 word.toNat

def readWords (data : List UInt8) (words : ℕ) : List UInt64 :=
  (List.range words).map fun i =>
    UInt64.ofNat (ofBigEndian ((data.drop (8 + i * 8)).take 8))

def fromBytes (data : List UInt8) : Except BloomError BloomFilter :=
  if data.length < 8 then .error .tooShort
  else
    let numBits := ofBigEndian (data.take 4)
    let numHashes := UInt32.ofNat (ofBigEndian ((data.drop 4).take 4))
    if numBits = 0 ∨ numHashes = 0 ∨ bloomMaxHashes < numHashes then
      .error (.invalidHeader numBits numHashes)
    else
      let expectedWords := (numBits + 63) / 64
      let expectedLen := 8 + expectedWords * 8
      if data.length < expectedLen then .error (.dataTooShort expectedLen data.length)
      else .ok ⟨readWords data expectedWords, numBits, numHashes⟩

def insertAll [Sha3] (f : BloomFilter) (items : List (List UInt8)) : Option BloomFilter :=
  items.foldlM insert f

/-! ### Positions -/

structure Sized (f : BloomFilter) : Prop where
  pos : 0 < f.numBits
  words : f.bits.length = (f.numBits + 63) / 64

section

variable [Sha3] {f g : BloomFilter} {item : List UInt8}

def positions (f : BloomFilter) (item : List UInt8) : List ℕ :=
  (List.range f.numHashes.toNat).map fun i =>
    ((doubleHash item).1.toNat + i * (doubleHash item).2.toNat) % f.numBits

omit [Sha3] in
theorem combinedHash_eq {n : UInt32} {i : ℕ} (hi : i ∈ List.range n.toNat) (h1 h2 : UInt64)
    {numBits : ℕ} (hpos : 0 < numBits) :
    combinedHash h1 h2 i numBits = some ((h1.toNat + i * h2.toNat) % numBits) := by
  have hlt : i < 2 ^ 32 := (List.mem_range.mp hi).trans n.toNat_lt
  have hprod : i * h2.toNat ≤ 2 ^ 32 * 2 ^ 64 := Nat.mul_le_mul hlt.le h2.toNat_lt.le
  have hsum := h1.toNat_lt
  refine if_neg (not_or_intro (fun h => ?_) hpos.ne')
  unfold U128.max at h
  omega

omit [Sha3] in
theorem Sized.exists_word (h : f.Sized) (n : ℕ) :
    ∃ word, f.bits[n % f.numBits / 64]? = some word := by
  have hlt := Nat.mod_lt n h.pos
  refine ⟨_, List.getElem?_eq_getElem ?_⟩
  rw [h.words]
  omega

/-! ### Reading -/

omit [Sha3] in
theorem allM_eq {l : List ℕ} {p : ℕ → Option Bool} {q : ℕ → Bool} (h : ∀ i ∈ l, p i = some (q i)) :
    l.allM p = some (l.all q) := by
  induction l with
  | nil => rfl
  | cons i l ih =>
    rw [List.allM, h i List.mem_cons_self, List.all_cons]
    cases hq : q i with
    | false => rfl
    | true => exact ih fun j hj => h j (List.mem_cons_of_mem _ hj)

/-- An item is found if all its bits are set. -/
theorem contains_eq (h : f.Sized) (item : List UInt8) :
    f.contains item = some ((f.positions item).all (Bitmap.bit f.bits)) := by
  unfold contains positions
  rw [List.all_map]
  obtain ⟨h1, h2⟩ := doubleHash item
  refine allM_eq fun i hi => ?_
  obtain ⟨word, hword⟩ := h.exists_word (h1.toNat + i * h2.toNat)
  rw [combinedHash_eq hi h1 h2 h.pos, Option.bind_eq_bind, Option.bind_some, hword]
  simp [Bitmap.and_mask_ne_zero, Bitmap.bit, List.getD_eq_getElem?_getD, hword]

/-! ### Setting -/

/-- The filter `g` has more bits set than `f`, those that are added, and is the same otherwise. -/
structure Grown (f g : BloomFilter) (added : List ℕ) : Prop where
  sized : g.Sized
  numBits : g.numBits = f.numBits
  numHashes : g.numHashes = f.numHashes
  bits : ∀ j, Bitmap.bit g.bits j = true ↔ Bitmap.bit f.bits j = true ∨ j ∈ added

omit [Sha3] in
theorem Grown.refl (h : f.Sized) : Grown f f [] := ⟨h, rfl, rfl, fun _ => by simp⟩

omit [Sha3] in
theorem Grown.trans {e : BloomFilter} {added added' : List ℕ} (h : Grown e f added)
    (h' : Grown f g added') : Grown e g (added ++ added') where
  sized := h'.sized
  numBits := h'.numBits.trans h.numBits
  numHashes := h'.numHashes.trans h.numHashes
  bits j := by rw [h'.bits, h.bits, List.mem_append, or_assoc]

omit [Sha3] in
theorem setBit_spec (h : f.Sized) (n : ℕ) :
    ∃ g, f.setBit (n % f.numBits) = some g ∧ Grown f g [n % f.numBits] := by
  obtain ⟨word, hword⟩ := h.exists_word n
  refine ⟨_, congrArg (Option.map _) hword, ⟨h.pos, ?_⟩, rfl, rfl, fun j => ?_⟩
  · rw [List.length_set, h.words]
  · rw [Bitmap.bit_set hword, Bool.or_eq_true, decide_eq_true_iff, List.mem_singleton]

omit [Sha3] in
/-- The loop of an insertion, from any of its steps on. -/
theorem setBits_spec (h : f.Sized) (h1 h2 : UInt64) {l : List ℕ}
    (hl : l ⊆ List.range f.numHashes.toNat) :
    ∃ g, l.foldlM (fun f i => do
        let idx ← combinedHash h1 h2 i f.numBits
        f.setBit idx) f = some g ∧
      Grown f g (l.map fun i => (h1.toNat + i * h2.toNat) % f.numBits) := by
  induction l generalizing f with
  | nil => exact ⟨f, rfl, Grown.refl h⟩
  | cons i l ih =>
    obtain ⟨e, hset, hgrown⟩ := setBit_spec h (h1.toNat + i * h2.toNat)
    have hrest : l ⊆ List.range e.numHashes.toNat := by
      rw [hgrown.numHashes]
      exact fun j hj => hl (List.mem_cons_of_mem _ hj)
    obtain ⟨g, hfold, hgrown'⟩ := ih hgrown.sized hrest
    refine ⟨g, ?_, ?_⟩
    · rw [List.foldlM_cons, combinedHash_eq (hl List.mem_cons_self) h1 h2 h.pos]
      simp only [Option.bind_eq_bind, Option.bind_some, hset]
      exact hfold
    · rw [hgrown.numBits] at hgrown'
      exact hgrown.trans hgrown'

theorem insert_spec (h : f.Sized) (item : List UInt8) :
    ∃ g, f.insert item = some g ∧ Grown f g (f.positions item) :=
  setBits_spec h (doubleHash item).1 (doubleHash item).2 (List.Subset.refl _)

theorem Grown.positions_eq {added : List ℕ} (h : Grown f g added) (item : List UInt8) :
    g.positions item = f.positions item := by
  unfold positions
  rw [h.numBits, h.numHashes]

theorem insertAll_spec (h : f.Sized) (items : List (List UInt8)) :
    ∃ g, f.insertAll items = some g ∧ Grown f g (items.flatMap f.positions) := by
  induction items generalizing f with
  | nil => exact ⟨f, rfl, Grown.refl h⟩
  | cons item items ih =>
    obtain ⟨e, hinsert, hgrown⟩ := insert_spec h item
    obtain ⟨g, hrest, hgrown'⟩ := ih hgrown.sized
    rw [funext hgrown.positions_eq] at hgrown'
    refine ⟨g, ?_, hgrown.trans hgrown'⟩
    unfold insertAll
    rw [List.foldlM_cons, hinsert]
    exact hrest

/-- What is among the inserted items is found. -/
theorem Grown.contains_of_mem {items : List (List UInt8)}
    (h : Grown f g (items.flatMap f.positions)) {item : List UInt8} (hmem : item ∈ items) :
    g.contains item = some true := by
  rw [contains_eq h.sized, h.positions_eq, Option.some_inj, List.all_eq_true]
  intro j hj
  exact (h.bits j).mpr (.inr (List.mem_flatMap.mpr ⟨item, hmem, hj⟩))

end

/-! ### Sending -/

theorem take_drop_words (words : List UInt64) {i : ℕ} (hi : i < words.length) :
    ((words.flatMap fun word => bigEndian 8 word.toNat).drop (i * 8)).take 8 =
      bigEndian 8 (words.get ⟨i, hi⟩).toNat := by
  induction words generalizing i with
  | nil => exact absurd hi (Nat.not_lt_zero i)
  | cons word words ih =>
    have hlength : (bigEndian 8 word.toNat).length = 8 := length_bigEndian ..
    rw [List.flatMap_cons]
    cases i with
    | zero => exact List.take_left' hlength
    | succ i =>
      rw [Nat.succ_mul, Nat.add_comm, ← List.drop_drop, List.drop_left' hlength]
      exact ih (Nat.lt_of_succ_lt_succ hi)

theorem readWords_append {header : List UInt8} (hheader : header.length = 8)
    (words : List UInt64) :
    readWords (header ++ words.flatMap fun word => bigEndian 8 word.toNat) words.length = words := by
  refine List.ext_get (by simp [readWords]) fun i hi hlt => ?_
  have hword := (words.get ⟨i, hlt⟩).toNat_lt
  simp only [readWords, List.get_eq_getElem, List.getElem_map, List.getElem_range]
  rw [← List.drop_drop, List.drop_left' hheader, take_drop_words words hlt, ofBigEndian_bigEndian,
    show 256 ^ 8 = 2 ^ 64 from rfl, Nat.mod_eq_of_lt hword]
  exact UInt64.ofNat_toNat

/-- A filter as it is made here: it has few positions, and not too many bits to be sent. -/
structure Sendable (f : BloomFilter) : Prop where
  sized : f.Sized
  bits : f.numBits < 2 ^ 32
  hashes : f.numHashes ≠ 0 ∧ f.numHashes ≤ bloomMaxHashes

/-- A filter that is sent is read back. -/
theorem fromBytes_toBytes {f : BloomFilter} (h : f.Sendable) : fromBytes f.toBytes = .ok f := by
  have hbits : (bigEndian 4 f.numBits).length = 4 := length_bigEndian ..
  have hhashes : (bigEndian 4 f.numHashes.toNat).length = 4 := length_bigEndian ..
  have hwords : (f.bits.flatMap fun word => bigEndian 8 word.toNat).length = f.bits.length * 8 := by
    simp [List.length_flatMap, length_bigEndian]
  have hlength : f.toBytes.length = 8 + f.bits.length * 8 := by
    unfold toBytes
    rw [List.length_append, List.length_append, hbits, hhashes, hwords]
  have hnumBits : ofBigEndian (f.toBytes.take 4) = f.numBits := by
    unfold toBytes
    rw [List.append_assoc, List.take_left' hbits, ofBigEndian_bigEndian]
    exact Nat.mod_eq_of_lt h.bits
  have hnumHashes : UInt32.ofNat (ofBigEndian ((f.toBytes.drop 4).take 4)) = f.numHashes := by
    unfold toBytes
    rw [List.append_assoc, List.drop_left' hbits, List.take_left' hhashes, ofBigEndian_bigEndian,
      show 256 ^ 4 = 2 ^ 32 from rfl, Nat.mod_eq_of_lt f.numHashes.toNat_lt]
    exact UInt32.ofNat_toNat
  have hread : readWords f.toBytes f.bits.length = f.bits :=
    readWords_append (by rw [List.length_append, hbits, hhashes]) f.bits
  unfold fromBytes
  simp only [hnumBits, hnumHashes]
  rw [if_neg (by omega), if_neg (by simp [h.sized.pos.ne', h.hashes.1, h.hashes.2]),
    if_neg (by rw [hlength, h.sized.words]; omega), ← h.sized.words, hread]

theorem sized_of_fromBytes {data : List UInt8} {f : BloomFilter} (h : fromBytes data = .ok f) :
    f.Sized := by
  unfold fromBytes at h
  split at h
  · cases h
  · dsimp only at h
    split at h
    · cases h
    · next hheader =>
      split at h
      · cases h
      · cases h
        refine ⟨Nat.pos_of_ne_zero fun hzero => hheader (.inl hzero), ?_⟩
        simp [readWords]

section

variable [FilterMath]

theorem sized_new (expectedItems : ℕ) (fpRate : F64) : (new expectedItems fpRate).Sized where
  pos := Nat.lt_of_lt_of_le (by decide) (Nat.le_max_right _ 64)
  words := List.length_replicate

theorem numHashes_new (expectedItems : ℕ) (fpRate : F64) :
    (new expectedItems fpRate).numHashes ≠ 0 ∧
      (new expectedItems fpRate).numHashes ≤ bloomMaxHashes := by
  have hclamp : ∀ k, clamp 1 bloomMaxHashes k ≠ 0 ∧ clamp 1 bloomMaxHashes k ≤ bloomMaxHashes := by
    intro k
    unfold clamp bloomMaxHashes
    split
    · decide
    · next hlo =>
      split
      · decide
      · next hhi =>
        refine ⟨?_, UInt32.not_lt.mp hhi⟩
        rintro rfl
        exact hlo (by decide)
  exact hclamp _

variable [Sha3]

/-- What was inserted into a new filter is found, also after the filter was sent if it has less
than `2 ^ 32` bits; and with a filter that is read from bytes, whatever they are, no look-up and
no insertion fails. -/
theorem no_false_negatives :
    (∀ (expectedItems : ℕ) (fpRate : F64) (items : List (List UInt8)),
      ∃ f, (new expectedItems fpRate).insertAll items = some f ∧
        (∀ item ∈ items, f.contains item = some true) ∧
        (f.numBits < 2 ^ 32 → ∃ g, fromBytes f.toBytes = .ok g ∧
          ∀ item ∈ items, g.contains item = some true)) ∧
    ∀ (data : List UInt8) (f : BloomFilter), fromBytes data = .ok f →
      ∀ item, (∃ found, f.contains item = some found) ∧
        ∃ g, f.insert item = some g ∧ g.contains item = some true := by
  refine ⟨fun expectedItems fpRate items => ?_, fun data f h item => ?_⟩
  · obtain ⟨f, hinsert, hgrown⟩ := insertAll_spec (sized_new expectedItems fpRate) items
    have hfound : ∀ item ∈ items, f.contains item = some true := fun item hitem =>
      hgrown.contains_of_mem hitem
    refine ⟨f, hinsert, hfound, fun hbits => ⟨f, ?_, hfound⟩⟩
    refine fromBytes_toBytes ⟨hgrown.sized, hbits, ?_⟩
    rw [hgrown.numHashes]
    exact numHashes_new expectedItems fpRate
  · have hsized := sized_of_fromBytes h
    obtain ⟨g, hinsert, hgrown⟩ := insert_spec hsized item
    have hgrown' : Grown f g ([item].flatMap f.positions) := by simpa using hgrown
    exact ⟨⟨_, contains_eq hsized item⟩, g, hinsert,
      hgrown'.contains_of_mem (List.mem_singleton_self item)⟩

end

end BloomFilter

end ElaraMesh.Sync
