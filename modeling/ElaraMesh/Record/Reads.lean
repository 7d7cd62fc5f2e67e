import ElaraMesh.Record.Encode

/-!
# Reading what was written

The decoder run on the bytes of the encoder.  For every part of the format there is a statement
of one shape: on input that starts with the bytes of the part, the reader refuses, unless a
condition holds; if it holds, it returns the value and goes on behind the bytes.

## Main results

* `Reads.bind`, `Reads.guard`, `Reads.readMany` — how programs are put together.
* `reads_decodeJsonValue`, `reads_decodeMetadataBinary` — the metadata.
-/

namespace ElaraMesh
namespace Record

open Framing

/-! ### Programs and bytes -/

/-- The cursor is on the data, with the given bytes ahead. -/
structure WireReader.Ahead (r : WireReader) (bytes : List UInt8) : Prop where
  pos_le : r.pos ≤ r.data.length
  bytes_eq : r.remainingBytes = bytes

/-- On input that starts with the bytes, the program goes on as `y` behind them, if `ok` holds;
otherwise it refuses. -/
def Runs {α : Type} (x : Read α) (bytes : List UInt8) (ok : Prop) (y : Read α) : Prop :=
  ∀ r rest, WireReader.Ahead r (bytes ++ rest) →
    (ok → ∃ r', x r = y r' ∧ WireReader.Ahead r' rest) ∧ (¬ ok → ∃ e, x r = .error e)

/-- On input that starts with the bytes, the program returns `a` and goes on behind them, if
`ok` holds; otherwise it refuses. -/
def Reads {α : Type} (x : Read α) (bytes : List UInt8) (ok : Prop) (a : α) : Prop :=
  Runs x bytes ok (pure a)

variable {bytes : List UInt8} {n : ℕ} {o : Option (List UInt8)} {g : Value → Value} {i : ℤ}

theorem WireReader.Ahead.length_eq {r : WireReader} (h : r.Ahead bytes) :
    r.remaining = bytes.length := by
  rw [← h.bytes_eq, remainingBytes, List.length_drop]
  rfl

theorem WireReader.Ahead.advance {r : WireReader} {rest : List UInt8}
    (h : r.Ahead (bytes ++ rest)) (hn : bytes.length = n) : (r.advance n).Ahead rest := by
  have hlength := h.length_eq
  rw [remaining, List.length_append] at hlength
  have hpos := h.pos_le
  refine ⟨?_, ?_⟩
  · rw [WireReader.advance]
    dsimp only
    omega
  · have hdrop := congrArg (List.drop n) h.bytes_eq
    rwa [remainingBytes, List.drop_drop, List.drop_left' hn] at hdrop

namespace Runs

variable {β : Type} {x y z : Read β} {bytes bytes' : List UInt8} {ok ok' : Prop}

theorem refl (x : Read β) : Runs x [] True x :=
  fun r _ hr => ⟨fun _ => ⟨r, rfl, hr⟩, fun h => absurd trivial h⟩

theorem imp (hx : Runs x bytes ok y) (h : ok ↔ ok') : Runs x bytes ok' y := by
  intro r rest hr
  obtain ⟨hyes, hno⟩ := hx r rest hr
  exact ⟨fun hok => hyes (h.mpr hok), fun hok => hno fun hok' => hok (h.mp hok')⟩

theorem trans (hx : Runs x bytes ok y) (hy : ok → Runs y bytes' ok' z) :
    Runs x (bytes ++ bytes') (ok ∧ ok') z := by
  intro r rest hr
  rw [List.append_assoc] at hr
  obtain ⟨hyes, hno⟩ := hx r (bytes' ++ rest) hr
  by_cases hok : ok
  · obtain ⟨r', hxr, hr'⟩ := hyes hok
    rw [hxr]
    obtain ⟨hyes', hno'⟩ := hy hok r' rest hr'
    exact ⟨fun h => hyes' h.2, fun h => hno' fun h' => h ⟨hok, h'⟩⟩
  · obtain ⟨e, he⟩ := hno hok
    exact ⟨fun h => absurd h.1 hok, fun _ => ⟨e, he⟩⟩

/-- A check, and the rest of the program. -/
theorem guard {c : Prop} [Decidable c] {message : String} {f : Unit → Read β}
    (hf : ¬ c → Runs (f ()) bytes ok z) :
    Runs (refuseIf c message >>= f) bytes (¬ c ∧ ok) z := by
  intro r rest hr
  by_cases hc : c
  · have hrun : (refuseIf c message >>= f) r = .error (.wire message) := by
      rw [refuseIf, if_pos hc]
      rfl
    exact ⟨fun h => absurd hc h.1, fun _ => ⟨_, hrun⟩⟩
  · have hrun : (refuseIf c message >>= f) r = f () r := by
      rw [refuseIf, if_neg hc]
      rfl
    rw [hrun]
    obtain ⟨hyes, hno⟩ := hf hc r rest hr
    exact ⟨fun h => hyes h.2, fun h => hno fun h' => h ⟨hc, h'⟩⟩

end Runs

namespace Reads

variable {α β : Type} {x : Read α} {f : α → Read β} {z : Read β} {bytes bytes' : List UInt8}
  {ok ok' : Prop} {a : α} {b : β}

theorem pure (a : α) : Reads (Pure.pure a) [] True a := Runs.refl _

theorem imp (hx : Reads x bytes ok a) (h : ok ↔ ok') : Reads x bytes ok' a := Runs.imp hx h

theorem of_eq (hx : Reads x bytes ok a) (h : bytes = bytes') : Reads x bytes' ok a := h ▸ hx

theorem runs (hx : Reads x bytes ok a) : Runs (x >>= f) bytes ok (f a) := by
  intro r rest hr
  obtain ⟨hyes, hno⟩ := hx r rest hr
  have hrun : (x >>= f) r = (x r >>= fun p => f p.1 p.2) := rfl
  rw [hrun]
  refine ⟨fun hok => ?_, fun hok => ?_⟩
  · obtain ⟨r', hxr, hr'⟩ := hyes hok
    rw [hxr]
    exact ⟨r', rfl, hr'⟩
  · obtain ⟨e, he⟩ := hno hok
    rw [he]
    exact ⟨e, rfl⟩

theorem step (hx : Reads x bytes ok a) (hf : ok → Runs (f a) bytes' ok' z) :
    Runs (x >>= f) (bytes ++ bytes') (ok ∧ ok') z := hx.runs.trans hf

theorem andStep (hx : Reads x bytes True a) (hf : Runs (f a) bytes' ok z) :
    Runs (x >>= f) (bytes ++ bytes') ok z :=
  (hx.step fun _ => hf).imp (and_iff_right trivial)

theorem bind (hx : Reads x bytes ok a) (hf : ok → Reads (f a) bytes' ok' b) :
    Reads (x >>= f) (bytes ++ bytes') (ok ∧ ok') b := hx.step hf

theorem andThen (hx : Reads x bytes True a) (hf : Reads (f a) bytes' ok b) :
    Reads (x >>= f) (bytes ++ bytes') ok b := hx.andStep hf

theorem guard {c : Prop} [Decidable c] {message : String} {y : Unit → Read β}
    (hy : ¬ c → Reads (y ()) bytes ok b) :
    Reads (refuseIf c message >>= y) bytes (¬ c ∧ ok) b := Runs.guard hy

/-- The last step only changes the value. -/
theorem map (hx : Reads x bytes ok a) (g : α → β) :
    Reads (x >>= fun a => Pure.pure (g a)) bytes ok (g a) := by
  refine ((hx.bind fun _ => pure (g a)).imp (and_iff_left trivial)).of_eq ?_
  rw [List.append_nil]

theorem wireError (message : String) : Reads (wireError message : Read α) bytes False a :=
  fun _ _ _ => ⟨False.elim, fun _ => ⟨_, rfl⟩⟩

/-! ### Primitive fields -/

theorem readBytes (bytes : List UInt8) : Reads (readBytes bytes.length) bytes True bytes := by
  intro r rest hr
  refine ⟨fun _ => ⟨r.advance bytes.length, ?_, hr.advance rfl⟩, fun h => absurd trivial h⟩
  have hlength := hr.length_eq
  rw [WireReader.remaining, List.length_append] at hlength
  have hpos := hr.pos_le
  rw [Record.readBytes, if_pos (by omega), hr.bytes_eq, List.take_left' rfl]
  rfl

theorem readBytes' {bytes : List UInt8} {n : ℕ} (hn : bytes.length = n) :
    Reads (Record.readBytes n) bytes True bytes := hn ▸ readBytes bytes

theorem bigEndian (w n : ℕ) : Reads (Record.readBytes w) (bigEndian w n) True (bigEndian w n) :=
  readBytes' (length_bigEndian w n)

theorem readU8 (n : ℕ) : Reads readU8 (Framing.bigEndian 1 n) True (UInt8.ofNat n) := by
  have h := (bigEndian 1 n).map fun bytes => UInt8.ofNat (ofBigEndian bytes)
  rwa [ofBigEndian_bigEndian, show UInt8.ofNat (n % 256 ^ 1) = UInt8.ofNat n from
    UInt8.toNat_inj.mp (by simp)] at h

theorem readU16 (n : ℕ) : Reads readU16 (Framing.bigEndian 2 n) True (UInt16.ofNat n) := by
  have h := (bigEndian 2 n).map fun bytes => UInt16.ofNat (ofBigEndian bytes)
  rwa [ofBigEndian_bigEndian, show UInt16.ofNat (n % 256 ^ 2) = UInt16.ofNat n from
    UInt16.toNat_inj.mp (by simp)] at h

theorem readU32 (n : ℕ) : Reads readU32 (Framing.bigEndian 4 n) True (UInt32.ofNat n) := by
  have h := (bigEndian 4 n).map fun bytes => UInt32.ofNat (ofBigEndian bytes)
  rwa [ofBigEndian_bigEndian, show UInt32.ofNat (n % 256 ^ 4) = UInt32.ofNat n from
    UInt32.toNat_inj.mp (by simp)] at h

theorem readU64 (n : UInt64) : Reads readU64 (Framing.bigEndian 8 n.toNat) True n := by
  have h := (bigEndian 8 n.toNat).map fun bytes => UInt64.ofNat (ofBigEndian bytes)
  rwa [ofBigEndian_bigEndian, Nat.mod_eq_of_lt (by exact n.toNat_lt),
    UInt64.ofNat_toNat] at h

theorem readByte (c : UInt8) : Reads Record.readU8 [c] True c := by
  have h := readU8 c.toNat
  rwa [UInt8.ofNat_toNat, show Framing.bigEndian 1 c.toNat = [c] by simp [Framing.bigEndian]] at h

theorem tag {c : UInt8} {f : UInt8 → Read β} (h : Reads (f c) bytes ok b) :
    Reads (Record.readU8 >>= f) (c :: bytes) ok b := (readByte c).andThen h

theorem readU8Prefixed {data : List UInt8} (hdata : data.length ≤ 255) :
    Reads readU8Prefixed (sized 1 data) True data := by
  refine (readU8 data.length).andThen (readBytes' ?_)
  rw [UInt8.toNat_ofNat', Nat.mod_eq_of_lt (Nat.lt_succ_of_le hdata)]

theorem readU16Prefixed {data : List UInt8} (hdata : data.length ≤ 65535) :
    Reads readU16Prefixed (sized 2 data) True data := by
  refine (readU16 data.length).andThen (readBytes' ?_)
  rw [UInt16.toNat_ofNat', Nat.mod_eq_of_lt (Nat.lt_succ_of_le hdata)]

end Reads

/-- A field on the wire: an empty one is absent. -/
def present (o : Option (List UInt8)) : Option (List UInt8) := o.filter fun d => !d.isEmpty

theorem present_some {d : List UInt8} (hd : d ≠ []) : present (some d) = some d := by
  cases d with
  | nil => exact absurd rfl hd
  | cons c d => rfl

/-- The data of an optional field, behind its length. -/
theorem reads_optional {c : Prop} [Decidable c] {d : List UInt8} (hc : c ↔ d = [])
    (hn : d.length = n) :
    Reads (if c then pure none else readBytes n >>= fun data => pure (some data)) d True
      (present (some d)) := by
  by_cases hd : d = []
  · rw [if_pos (hc.mpr hd)]
    subst hd
    exact Reads.pure none
  · rw [if_neg fun h => hd (hc.mp h), present_some hd]
    exact (Reads.readBytes' hn).map some

theorem encodeU16Prefixed_some {data : List UInt8}
    (h : encodeU16Prefixed data = some bytes) : data.length ≤ 65535 ∧ bytes = sized 2 data := by
  rw [encodeU16Prefixed, Option.ite_none_right_eq_some] at h
  exact ⟨h.1, (Option.some.inj h.2).symm⟩

theorem encodeOptionalU16_some (h : encodeOptionalU16 o = some bytes) :
    (o.getD []).length ≤ 65535 ∧ bytes = sized 2 (o.getD []) := by
  cases o with
  | none => exact ⟨by decide, (Option.some.inj h).symm⟩
  | some d => exact encodeU16Prefixed_some h

theorem present_getD (o : Option (List UInt8)) : present (some (o.getD [])) = present o := by
  cases o with
  | none => rfl
  | some d => rfl

theorem reads_readOptionalU16
    (h : encodeOptionalU16 o = some bytes) : Reads readOptionalU16 bytes True (present o) := by
  obtain ⟨hlength, rfl⟩ := encodeOptionalU16_some h
  rw [← present_getD]
  have hlt : (o.getD []).length % 2 ^ 16 = (o.getD []).length :=
    Nat.mod_eq_of_lt (Nat.lt_succ_of_le hlength)
  refine (Reads.readU16 _).andThen (reads_optional ?_ ?_)
  · rw [← UInt16.toNat_inj, UInt16.toNat_ofNat', hlt]
    exact List.length_eq_zero_iff
  · rw [UInt16.toNat_ofNat', hlt]

theorem reads_readOptionalU32 (h : (o.getD []).length < 2 ^ 32) :
    Reads readOptionalU32 (encodeOptionalU32 o) True (present o) := by
  have hbytes : sized 4 (o.getD []) = encodeOptionalU32 o := by
    cases o with
    | none => rfl
    | some d => rfl
  rw [← present_getD, ← hbytes]
  have hlt : (o.getD []).length % 2 ^ 32 = (o.getD []).length := Nat.mod_eq_of_lt h
  refine (Reads.readU32 _).andThen (reads_optional ?_ ?_)
  · rw [← UInt32.toNat_inj, UInt32.toNat_ofNat', hlt]
    exact List.length_eq_zero_iff
  · rw [UInt32.toNat_ofNat', hlt]

/-! ### Lists and strings -/

theorem Reads.readMany {α β : Type} {item : Read β} {enc : α → List UInt8} {ok : α → Prop}
    {g : α → β} {l : List α} (hitem : ∀ a ∈ l, Reads item (enc a) (ok a) (g a)) :
    Reads (Record.readMany item l.length) (l.flatMap enc) (∀ a ∈ l, ok a) (l.map g) := by
  induction l with
  | nil => exact (Reads.pure []).imp (by simp)
  | cons a l ih =>
    obtain ⟨ha, hl⟩ := List.forall_mem_cons.mp hitem
    rw [List.forall_mem_cons]
    exact ha.bind fun _ => (ih hl).map (g a :: ·)

theorem fromUtf8_bytes (s : Str) : Str.fromUtf8 s.bytes = .ok s := by
  unfold Str.fromUtf8
  split
  · rfl
  · next e he => rw [s.valid] at he; cases he

theorem reads_readStr (what : String) (s : Str) : Reads (readStr what s.bytes) [] True s := by
  rw [readStr, fromUtf8_bytes]
  exact Reads.pure s

/-! ### Maps -/

/-- The keys of a map are in order. -/
def Increasing (fields : List (Str × Value)) : Prop := fields.Pairwise fun e e' => e.1 < e'.1

theorem mapInsert_append {k : Str} {v : Value} {m : List (Str × Value)} (h : ∀ e ∈ m, e.1 < k) :
    mapInsert k v m = m ++ [(k, v)] := by
  induction m with
  | nil => rfl
  | cons e m ih =>
    obtain ⟨hlt, hm⟩ := List.forall_mem_cons.mp h
    obtain ⟨k', v'⟩ := e
    rw [mapInsert, if_neg (not_lt_of_gt hlt), if_neg (ne_of_gt hlt), ih hm]
    rfl

/-- Entries in order, read behind smaller ones. -/
theorem reads_readEntries {keyName : String} {value : Read Value} {ok : Value → Prop}
    {g : Value → Value} : ∀ {fields before : List (Str × Value)},
    (∀ e ∈ fields, e.1.len ≤ 255 ∧ Reads value (valueBytes e.2) (ok e.2) (g e.2)) →
    Increasing (before ++ fields.map fun e => (e.1, g e.2)) →
    Reads (readEntries keyName value fields.length before) (fields.flatMap entryBytes)
      (∀ e ∈ fields, ok e.2) (before ++ fields.map fun e => (e.1, g e.2)) := by
  intro fields
  induction fields with
  | nil =>
    intro before _ _
    rw [List.map_nil, List.append_nil]
    exact (Reads.pure before).imp (by simp)
  | cons e fields ih =>
    intro before hall hsorted
    obtain ⟨k, v⟩ := e
    obtain ⟨⟨hkey, hvalue⟩, hfields⟩ := List.forall_mem_cons.mp hall
    have hinsert : mapInsert k (g v) before = before ++ [(k, g v)] := by
      refine mapInsert_append fun e he => ?_
      exact (List.pairwise_append.mp hsorted).2.2 e he (k, g v) List.mem_cons_self
    have happend : before ++ ((k, v) :: fields).map (fun e => (e.1, g e.2)) =
        (before ++ [(k, g v)]) ++ fields.map fun e => (e.1, g e.2) := by
      rw [List.map_cons, List.append_assoc]
      rfl
    rw [happend] at hsorted ⊢
    rw [List.forall_mem_cons]
    have htail : Reads (readEntries keyName value fields.length (mapInsert k (g v) before))
        (fields.flatMap entryBytes) (∀ e ∈ fields, ok e.2)
        ((before ++ [(k, g v)]) ++ fields.map fun e => (e.1, g e.2)) := by
      rw [hinsert]
      exact ih hfields hsorted
    rw [List.length_cons, readEntries]
    refine ((Reads.readU8Prefixed hkey).andThen ((reads_readStr keyName k).andThen
      (hvalue.bind fun _ => htail))).of_eq ?_
    rw [List.flatMap_cons, entryBytes, List.nil_append, List.append_assoc]

/-- Keys stay as they are on the wire. -/
theorem increasing_map {fields : List (Str × Value)} :
    Increasing (fields.map fun e => (e.1, g e.2)) ↔ Increasing fields := List.pairwise_map

theorem reads_readFields {keyName : String} {value : Read Value} {ok : Value → Prop}
    {fields : List (Str × Value)} (hkeys : Increasing fields)
    (hfields : ∀ e ∈ fields, e.1.len ≤ 255 ∧ Reads value (valueBytes e.2) (ok e.2) (g e.2)) :
    Reads (readEntries keyName value fields.length []) (fields.flatMap entryBytes)
      (∀ e ∈ fields, ok e.2) (fields.map fun e => (e.1, g e.2)) := by
  have h := @reads_readEntries keyName value ok g fields [] hfields
  rw [List.nil_append] at h
  exact h (increasing_map.mpr hkeys)

/-! ### Values -/

/-- The caps of the decoder: enough levels are left, and no list or map is too long. -/
def Value.Accepted : ℕ → Value → Prop
  | 0, _ => False
  | left + 1, .array items => items.length ≤ maxMetadataEntries ∧ ∀ v ∈ items, v.Accepted left
  | left + 1, .object fields =>
    fields.length ≤ maxMetadataEntries ∧ ∀ e ∈ fields, e.2.Accepted left
  | _ + 1, .number n => n.wired.allFinite = true
  | _ + 1, _ => True

/-- The keys of the map, and of all maps inside, are in order. -/
inductive Value.Sorted : Value → Prop where
  | null : Sorted .null
  | bool (b : Bool) : Sorted (.bool b)
  | number (n : Number) : Sorted (.number n)
  | string (s : Str) : Sorted (.string s)
  | array {items : List Value} (hitems : ∀ v ∈ items, Sorted v) : Sorted (.array items)
  | object {fields : List (Str × Value)} (hkeys : Increasing fields)
      (hfields : ∀ e ∈ fields, Sorted e.2) : Sorted (.object fields)

theorem bounds_of_asI64 {v : Value} (h : v.asI64 = some i) :
    -2 ^ 63 ≤ i ∧ i < 2 ^ 63 := by
  unfold Value.asI64 at h
  split at h
  · obtain ⟨hi, h⟩ := Option.ite_none_right_eq_some.mp h
    exact Option.some.inj h ▸ hi
  · cases h

theorem toI64_wire (hi : -2 ^ 63 ≤ i ∧ i < 2 ^ 63) :
    toI64 ((i % 2 ^ 64).toNat % 256 ^ 8) = i := by
  unfold toI64
  split <;> omega

theorem reads_float (bits : UInt64) (left : ℕ) :
    Reads (decodeJsonValue (left + 1)) (3 :: bigEndian 8 bits.toNat) (isFinite bits = true)
      (.number (.float bits)) := by
  refine Reads.tag (((Reads.readU64 bits).andThen
    (Reads.guard fun _ => Reads.pure (Value.number (.float bits)))).imp ?_)
  rw [not_not, and_true]

theorem reads_int (hi : -2 ^ 63 ≤ i ∧ i < 2 ^ 63) (left : ℕ) :
    Reads (decodeJsonValue (left + 1)) (2 :: bigEndian 8 (i % 2 ^ 64).toNat) True
      (.number (.int i)) := by
  have h := (Reads.bigEndian 8 (i % 2 ^ 64).toNat).map fun bytes =>
    Value.number (.int (toI64 (ofBigEndian bytes)))
  rw [ofBigEndian_bigEndian, toI64_wire hi] at h
  exact Reads.tag h

theorem reads_number (n : Number) (left : ℕ) :
    Reads (decodeJsonValue (left + 1)) (encodeNumber n) (n.wired.allFinite = true) n.wired := by
  unfold encodeNumber Number.wired
  split
  · next i hi =>
    exact (reads_int (bounds_of_asI64 hi) left).imp (iff_of_true trivial rfl)
  · next f _ hf => exact reads_float f.bits left
  · exact Reads.tag ((Reads.pure Value.null).imp (iff_of_true trivial rfl))

theorem reads_string {s : Str} (hs : s.len ≤ 65535) (left : ℕ) :
    Reads (decodeJsonValue (left + 1)) (4 :: sized 2 s.bytes) True (.string s) := by
  refine (Reads.tag (((Reads.readU16Prefixed hs).andThen
    ((reads_readStr _ s).map Value.string)).of_eq ?_))
  rw [List.append_nil]

/-- A count, within the cap of the decoder, and what is counted. -/
theorem Reads.count {α : Type} {cap : ℕ} (hn : n ≤ 65535) {counter : Read UInt16}
    (hcounter : Reads counter (Framing.bigEndian 2 n) True (UInt16.ofNat n))
    {message : UInt16 → String} {body : UInt16 → Read α} {ok : Prop} {a : α}
    (hbody : (UInt16.ofNat n).toNat = n → Reads (body (UInt16.ofNat n)) bytes ok a) :
    Reads (counter >>= fun count =>
        refuseIf (count.toNat > cap) (message count) >>= fun _ => body count)
      (Framing.bigEndian 2 n ++ bytes) (n ≤ cap ∧ ok) a := by
  have hcount : (UInt16.ofNat n).toNat = n := by
    rw [UInt16.toNat_ofNat', Nat.mod_eq_of_lt (Nat.lt_succ_of_le hn)]
  refine hcounter.andThen ((Reads.guard fun _ => hbody hcount).imp ?_)
  rw [hcount, gt_iff_lt, Nat.not_lt]

/-- **A value is read as it is on the wire**, if the caps of the decoder allow it: by induction
on the levels left. -/
theorem reads_decodeJsonValue : ∀ (left : ℕ) {v : Value} {bytes : List UInt8}, v.Sorted →
    encodeJsonValue v = .ok bytes →
    Reads (decodeJsonValue left) bytes (v.Accepted left) v.wired := by
  intro left
  induction left with
  | zero =>
    intro v bytes _ _
    rw [Value.Accepted]
    exact Reads.wireError _
  | succ left ih =>
    intro v bytes hsorted h
    cases hsorted with
    | null =>
      cases h
      exact Reads.tag (Reads.pure Value.null)
    | bool b =>
      cases h
      have h := (Reads.readByte (if b then 1 else 0)).map fun c : UInt8 => Value.bool (c ≠ 0)
      cases b with
      | false => exact Reads.tag h
      | true => exact Reads.tag h
    | number n =>
      cases h
      exact reads_number n left
    | string s =>
      obtain ⟨_, hlen, h⟩ := encode_bind_ok h
      cases h
      exact reads_string (Nat.not_lt.mp (overflowIf_ok hlen)) left
    | array hitems =>
      obtain ⟨_, hcount, h⟩ := encode_bind_ok h
      obtain ⟨body, hbody, h⟩ := encode_bind_ok h
      cases h
      obtain ⟨hencoded, rfl⟩ := encodeItems_ok hbody
      have hread := Reads.readMany fun v hv => ih (hitems v hv) (hencoded v hv)
      rw [Value.wired, Value.wiredItems_eq]
      refine Reads.tag (Reads.count (Nat.not_lt.mp (overflowIf_ok hcount)) (Reads.readU16 _) fun hn => ?_)
      rw [hn]
      exact hread.map Value.array
    | object hkeys hfields =>
      obtain ⟨_, hcount, h⟩ := encode_bind_ok h
      obtain ⟨body, hbody, h⟩ := encode_bind_ok h
      cases h
      obtain ⟨hencoded, rfl⟩ := encodeFields_ok hbody
      rw [Value.wired, Value.wiredFields_eq]
      refine Reads.tag (Reads.count (Nat.not_lt.mp (overflowIf_ok hcount)) (Reads.readU16 _) fun hn => ?_)
      rw [hn]
      refine (reads_readFields hkeys fun e he => ?_).map Value.object
      exact ⟨(hencoded e he).1, ih (hfields e he) (hencoded e he).2⟩

/-- **The metadata are read as they are on the wire**, if the caps of the decoder allow it. -/
theorem reads_decodeMetadataBinary {metadata : List (Str × Value)}
    (hkeys : Increasing metadata) (hsorted : ∀ e ∈ metadata, e.2.Sorted)
    (h : encodeMetadataBinary metadata = .ok bytes) :
    Reads decodeMetadataBinary bytes
      (metadata.length ≤ maxMetadataEntries ∧
        ∀ e ∈ metadata, e.2.Accepted (maxMetadataDepth + 1))
      (Value.wiredFields metadata) := by
  obtain ⟨_, hcount, h⟩ := encode_bind_ok h
  obtain ⟨body, hbody, h⟩ := encode_bind_ok h
  cases h
  obtain ⟨hencoded, rfl⟩ := encodeFields_ok hbody
  rw [Value.wiredFields_eq]
  refine Reads.count (Nat.not_lt.mp (overflowIf_ok hcount)) (Reads.readU16 _) fun hn => ?_
  rw [hn]
  refine reads_readFields hkeys fun e he => ?_
  exact ⟨(hencoded e he).1, reads_decodeJsonValue _ (hsorted e he) (hencoded e he).2⟩

end Record
end ElaraMesh
