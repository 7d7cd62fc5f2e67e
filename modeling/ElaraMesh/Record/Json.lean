import ElaraMesh.Record.Text

/-!
# Compact JSON

Metadata is a map of JSON values.  It is signed as the compact text of the JSON
writer: no white space, keys in the order of the map, and only the necessary
escapes.  The text can be told apart from whatever follows it.

How a finite float is written is the business of a number formatting library: it
is a parameter, with what the argument needs of it as hypotheses.

## Main results

* `Value.compact_separable` — the text of a value shows where it ends.
* `compactMap_append_inj` — the text of a map determines the map and what follows.
-/

namespace ElaraMesh
namespace Record

open Framing

/-! ### Values -/

/-- A JSON number: an integer, or the bits of a double. -/
inductive Number where
  | int (i : ℤ) : Number
  | float (bits : UInt64) : Number
  deriving DecidableEq

/-- A JSON value; the fields of an object are in the order of their keys. -/
inductive Value where
  | null : Value
  | bool (b : Bool) : Value
  | number (n : Number) : Value
  | string (s : Str) : Value
  | array (items : List Value) : Value
  | object (fields : List (Str × Value)) : Value

/-- Insert into an ordered map: an entry under the same key is replaced. -/
def mapInsert {K V : Type*} [LinearOrder K] (k : K) (v : V) : List (K × V) → List (K × V)
  | [] => [(k, v)]
  | (k', v') :: rest =>
    if k < k' then (k, v) :: (k', v') :: rest
    else if k = k' then (k, v) :: rest
    else (k', v') :: mapInsert k v rest

theorem mem_mapInsert {K V : Type*} [LinearOrder K] {k : K} {v : V} {e : K × V} :
    ∀ {m : List (K × V)}, e ∈ mapInsert k v m → e = (k, v) ∨ e ∈ m := by
  intro m
  induction m with
  | nil => intro h; exact Or.inl (List.mem_singleton.mp h)
  | cons e' rest ih =>
    intro h
    obtain ⟨k', v'⟩ := e'
    unfold mapInsert at h
    split at h
    · exact List.mem_cons.mp h
    · split at h
      · rcases List.mem_cons.mp h with rfl | h
        · exact Or.inl rfl
        · exact Or.inr (List.mem_cons_of_mem _ h)
      · rcases List.mem_cons.mp h with rfl | h
        · exact Or.inr List.mem_cons_self
        · exact (ih h).imp_right (List.mem_cons_of_mem _)

/-- Induction on a value: for an array and an object the property holds of all
values inside. -/
theorem Value.ind {P : Value → Prop} (null : P .null) (bool : ∀ b, P (.bool b))
    (number : ∀ n, P (.number n)) (string : ∀ s, P (.string s))
    (array : ∀ items, (∀ v ∈ items, P v) → P (.array items))
    (object : ∀ fields : List (Str × Value), (∀ f ∈ fields, P f.2) → P (.object fields))
    (v : Value) : P v := by
  refine @Value.rec P (fun items => ∀ v ∈ items, P v) (fun fields => ∀ f ∈ fields, P f.2)
    (fun f => P f.2) null bool number string array object ?_ ?_ ?_ ?_ ?_ v
  · simp
  · exact fun v items hv hitems => List.forall_mem_cons.mpr ⟨hv, hitems⟩
  · simp
  · exact fun f fields hf hfields => List.forall_mem_cons.mpr ⟨hf, hfields⟩
  · exact fun _ _ hv => hv

/-- The exponent is not that of an infinity or of no number. -/
def isFinite (bits : UInt64) : Bool := (bits >>> 52) &&& 0x7ff ≠ 0x7ff

mutual

def Value.allFinite : Value → Bool
  | .number (.float bits) => isFinite bits
  | .array items => allFiniteItems items
  | .object fields => allFiniteFields fields
  | _ => true

def Value.allFiniteItems : List Value → Bool
  | [] => true
  | v :: items => v.allFinite && allFiniteItems items

def Value.allFiniteFields : List (Str × Value) → Bool
  | [] => true
  | (_, v) :: fields => v.allFinite && allFiniteFields fields

end

theorem Value.allFiniteItems_iff {items : List Value} :
    allFiniteItems items = true ↔ ∀ v ∈ items, v.allFinite = true := by
  induction items with
  | nil => simp [allFiniteItems]
  | cons v items ih => simp [allFiniteItems, ih]

theorem Value.allFiniteFields_iff {fields : List (Str × Value)} :
    allFiniteFields fields = true ↔ ∀ f ∈ fields, f.2.allFinite = true := by
  induction fields with
  | nil => simp [allFiniteFields]
  | cons f fields ih =>
    obtain ⟨k, v⟩ := f
    simp [allFiniteFields, ih]

/-! ### Strings -/

/-- The lower case hexadecimal digit. -/
def hexDigit (n : UInt8) : UInt8 := if n < 10 then 48 + n else 87 + n

/-- A byte inside of a JSON string: the quote, the backslash and the control
characters are escaped. -/
def escape (b : UInt8) : List UInt8 :=
  if b = 0x22 then [0x5c, 0x22]
  else if b = 0x5c then [0x5c, 0x5c]
  else if b = 0x08 then [0x5c, 0x62]
  else if b = 0x09 then [0x5c, 0x74]
  else if b = 0x0a then [0x5c, 0x6e]
  else if b = 0x0c then [0x5c, 0x66]
  else if b = 0x0d then [0x5c, 0x72]
  else if b < 0x20 then [0x5c, 0x75, 0x30, 0x30, hexDigit (b >>> 4), hexDigit (b &&& 0xf)]
  else [b]

def compactStr (s : Str) : List UInt8 := 0x22 :: (s.bytes.flatMap escape ++ [0x22])

/-- An escape and what is read back from it: the byte and the length of its code. -/
def unescape : List UInt8 → UInt8 × ℕ
  | 0x5c :: 0x22 :: _ => (0x22, 2)
  | 0x5c :: 0x5c :: _ => (0x5c, 2)
  | 0x5c :: 0x62 :: _ => (0x08, 2)
  | 0x5c :: 0x74 :: _ => (0x09, 2)
  | 0x5c :: 0x6e :: _ => (0x0a, 2)
  | 0x5c :: 0x66 :: _ => (0x0c, 2)
  | 0x5c :: 0x72 :: _ => (0x0d, 2)
  | 0x5c :: 0x75 :: _ :: _ :: h :: l :: _ =>
    ((h - 48) * 16 + (if l < 58 then l - 48 else l - 87), 6)
  | b :: _ => (b, 1)
  | [] => (0, 0)

theorem unescape_escape (b : UInt8) (r : List UInt8) :
    unescape (escape b ++ r) = (b, (escape b).length) := by
  by_cases hspecial : b < 0x20 ∨ b = 0x22 ∨ b = 0x5c
  · -- thirty-four bytes, each with its own escape
    rcases hspecial with hlt | rfl | rfl
    · obtain ⟨n, hn, rfl⟩ : ∃ n, n < 32 ∧ b = UInt8.ofNat n :=
        ⟨b.toNat, UInt8.lt_iff_toNat_lt.mp hlt, by simp⟩
      interval_cases n <;> rfl
    · rfl
    · rfl
  · push Not at hspecial
    obtain ⟨hge, h22, h5c⟩ := hspecial
    have hne : ∀ c : UInt8, c < 0x20 → b ≠ c := by
      rintro c hc rfl
      exact absurd hc (by simpa using hge)
    have hesc : escape b = [b] := by
      simp only [escape, if_neg h22, if_neg h5c, if_neg (hne 0x08 (by decide)),
        if_neg (hne 0x09 (by decide)), if_neg (hne 0x0a (by decide)), if_neg (hne 0x0c (by decide)),
        if_neg (hne 0x0d (by decide)), if_neg (show ¬ b < 0x20 by simpa using hge)]
    rw [hesc]
    unfold unescape
    split <;> simp_all

/-- Escapes are a prefix code. -/
theorem escape_append_inj (a b : UInt8) (r s : List UInt8) (h : escape a ++ r = escape b ++ s) :
    a = b ∧ r = s := by
  have hab := congrArg unescape h
  rw [unescape_escape, unescape_escape] at hab
  obtain ⟨rfl, -⟩ := Prod.mk.inj hab
  exact ⟨rfl, List.append_cancel_left h⟩

theorem escape_ne_nil (b : UInt8) : escape b ≠ [] := by
  unfold escape
  repeat' split
  all_goals simp

theorem escape_head (b : UInt8) : (escape b).head? ≠ some 0x22 := by
  unfold escape
  repeat' split
  all_goals simp
  assumption

/-- A string in quotes shows where it ends. -/
theorem compactStr_append_inj {s t : Str} {r u : List UInt8}
    (h : compactStr s ++ r = compactStr t ++ u) : s = t ∧ r = u := by
  simp only [compactStr, List.cons_append, List.append_assoc, List.cons.injEq, true_and,
    List.nil_append] at h
  obtain ⟨hbytes, hr⟩ := separable_terminated escape_append_inj escape_head escape_ne_nil
    s.bytes t.bytes r u h
  exact ⟨Str.ext hbytes, hr⟩

/-! ### Numbers -/

/-- A byte that numbers are written with. -/
def isNumeric (c : UInt8) : Prop :=
  (48 ≤ c ∧ c ≤ 57) ∨ c = 0x2d ∨ c = 0x2b ∨ c = 0x2e ∨ c = 0x65

instance : DecidablePred isNumeric := fun c => by unfold isNumeric; infer_instance

theorem not_isNumeric_comma : ¬ isNumeric 0x2c := by decide

/-- How a finite float is written, by its bits. -/
class FloatFormat where
  formatFinite : UInt64 → List UInt8

/-- What is asked of the text of a float: it is a number that shows that it is no
integer, and different floats have different texts. -/
structure FloatFormat.Lawful [FloatFormat] : Prop where
  numeric : ∀ bits, isFinite bits → ∀ c ∈ formatFinite bits, isNumeric c
  fractional : ∀ bits, isFinite bits →
    (0x2e : UInt8) ∈ formatFinite bits ∨ (0x65 : UInt8) ∈ formatFinite bits
  injective : ∀ bits bits', isFinite bits → isFinite bits' →
    formatFinite bits = formatFinite bits' → bits = bits'

/-- The decimal text of an integer. -/
def compactInt : ℤ → List UInt8
  | .ofNat n => decimal n
  | .negSucc n => 0x2d :: decimal (n + 1)

def Number.compact [FloatFormat] : Number → List UInt8
  | .int i => compactInt i
  | .float bits => FloatFormat.formatFinite bits

theorem compactInt_plain {i : ℤ} {c : UInt8} (hc : c ∈ compactInt i) :
    (48 ≤ c ∧ c ≤ 57) ∨ c = 0x2d := by
  cases i with
  | ofNat n => exact Or.inl (digit_of_mem_decimal hc)
  | negSucc n =>
    rcases List.mem_cons.mp hc with rfl | hc
    · exact Or.inr rfl
    · exact Or.inl (digit_of_mem_decimal hc)

theorem compactInt_injective : Function.Injective compactInt := by
  -- a minus sign is no digit
  have hsign : ∀ n m, decimal n ≠ 0x2d :: decimal m := by
    intro n m h
    have := digit_of_mem_decimal (n := n) (c := 0x2d) (by rw [h]; exact List.mem_cons_self)
    exact absurd this (by decide)
  intro i j h
  cases i with
  | ofNat n =>
    cases j with
    | ofNat m => rw [decimal_injective h]
    | negSucc m => exact absurd h (hsign n (m + 1))
  | negSucc n =>
    cases j with
    | ofNat m => exact absurd h.symm (hsign m (n + 1))
    | negSucc m =>
      have := decimal_injective (List.cons.inj h).2
      rw [Nat.succ.inj this]

def Number.IsFinite : Number → Prop
  | .int _ => True
  | .float bits => isFinite bits = true

section

variable [FloatFormat] (hff : FloatFormat.Lawful)
include hff

theorem Number.numeric_of_mem {n : Number} (hn : n.IsFinite) {c : UInt8} (hc : c ∈ n.compact) :
    isNumeric c := by
  cases n with
  | int i => exact (compactInt_plain hc).imp_right Or.inl
  | float bits => exact hff.numeric bits hn c hc

theorem Number.int_ne_float {i : ℤ} {bits : UInt64} (hb : isFinite bits = true) :
    compactInt i ≠ FloatFormat.formatFinite bits := by
  intro h
  rcases hff.fractional bits hb with hmem | hmem <;> rw [← h] at hmem <;>
    exact absurd (compactInt_plain hmem) (by decide)

theorem Number.compact_injective {n m : Number} (hn : n.IsFinite) (hm : m.IsFinite)
    (h : n.compact = m.compact) : n = m := by
  cases n with
  | int i =>
    cases m with
    | int j => rw [compactInt_injective h]
    | float bits => exact absurd h (int_ne_float hff hm)
  | float bits =>
    cases m with
    | int j => exact absurd h.symm (int_ne_float hff hn)
    | float bits' => rw [hff.injective bits bits' hn hm h]

theorem Number.compact_ne_nil {n : Number} (hn : n.IsFinite) : n.compact ≠ [] := by
  cases n with
  | int i =>
    cases i with
    | ofNat n => exact decimal_ne_nil n
    | negSucc n => simp [compact, compactInt]
  | float bits =>
    intro h
    rcases hff.fractional bits hn with hmem | hmem <;>
      rw [show FloatFormat.formatFinite bits = [] from h] at hmem <;> simp at hmem

/-- The text of a number ends where something else follows. -/
theorem Number.compact_separable : Separable isNumeric Number.IsFinite Number.compact :=
  separable_of_run (fun _ hn _ hc => numeric_of_mem hff hn hc)
    fun _ _ hn hm h => compact_injective hff hn hm h

end

/-! ### Values -/

mutual

def Value.compact [FloatFormat] : Value → List UInt8
  | .null => [0x6e, 0x75, 0x6c, 0x6c]
  | .bool true => [0x74, 0x72, 0x75, 0x65]
  | .bool false => [0x66, 0x61, 0x6c, 0x73, 0x65]
  | .number n => n.compact
  | .string s => compactStr s
  | .array items => 0x5b :: (compactItems true items ++ [0x5d])
  | .object fields => 0x7b :: (compactFields true fields ++ [0x7d])

/-- The items of an array, with commas in between. -/
def Value.compactItems [FloatFormat] : Bool → List Value → List UInt8
  | _, [] => []
  | first, v :: items =>
    (if first then [] else [0x2c]) ++ v.compact ++ compactItems false items

/-- The fields of an object, with commas in between. -/
def Value.compactFields [FloatFormat] : Bool → List (Str × Value) → List UInt8
  | _, [] => []
  | first, (k, v) :: fields =>
    (if first then [] else [0x2c]) ++ (compactStr k ++ 0x3a :: v.compact) ++
      compactFields false fields

end

def compactMap [FloatFormat] (m : List (Str × Value)) : List UInt8 := (Value.object m).compact

def compactField [FloatFormat] (f : Str × Value) : List UInt8 :=
  compactStr f.1 ++ 0x3a :: f.2.compact

namespace Value

variable [FloatFormat]

theorem compactItems_eq : ∀ (items : List Value) (first : Bool),
    compactItems first items = sepBy 0x2c first (items.map compact) := by
  intro items
  induction items with
  | nil => intro first; rfl
  | cons v items ih => intro first; rw [compactItems, ih]; rfl

theorem compactFields_eq : ∀ (fields : List (Str × Value)) (first : Bool),
    compactFields first fields = sepBy 0x2c first (fields.map compactField) := by
  intro fields
  induction fields with
  | nil => intro first; rfl
  | cons f fields ih =>
    intro first
    obtain ⟨k, v⟩ := f
    rw [compactFields, ih]
    rfl

/-- What a value starts with; `0` stands for all numbers. -/
def mark : Value → UInt8
  | .null => 0x6e
  | .bool true => 0x74
  | .bool false => 0x66
  | .number _ => 0x30
  | .string _ => 0x22
  | .array _ => 0x5b
  | .object _ => 0x7b

/-- The kind of a first byte. -/
def lead (c : UInt8) : UInt8 := if isNumeric c then 0x30 else c

variable (hff : FloatFormat.Lawful)
include hff

/-- The first byte of a value shows its kind. -/
theorem compact_eq_cons {v : Value} (hv : v.allFinite = true) :
    ∃ c t, v.compact = c :: t ∧ lead c = v.mark := by
  cases v with
  | null => exact ⟨_, _, rfl, by decide⟩
  | bool b => cases b <;> exact ⟨_, _, rfl, by decide⟩
  | number n =>
    have hn : n.IsFinite := by cases n <;> first | exact hv | trivial
    cases hc : n.compact with
    | nil => exact absurd hc (Number.compact_ne_nil hff hn)
    | cons c t =>
      refine ⟨c, t, hc, if_pos (Number.numeric_of_mem hff hn ?_)⟩
      rw [hc]
      exact List.mem_cons_self
  | string s => exact ⟨_, _, rfl, (by decide : lead 0x22 = 0x22)⟩
  | array items => exact ⟨_, _, rfl, (by decide : lead 0x5b = 0x5b)⟩
  | object fields => exact ⟨_, _, rfl, (by decide : lead 0x7b = 0x7b)⟩

theorem mark_eq {v w : Value} (hv : v.allFinite = true) (hw : w.allFinite = true)
    {r s : List UInt8} (h : v.compact ++ r = w.compact ++ s) : v.mark = w.mark := by
  obtain ⟨c, t, hc, hlead⟩ := compact_eq_cons hff hv
  obtain ⟨c', t', hc', hlead'⟩ := compact_eq_cons hff hw
  rw [hc, hc'] at h
  rw [← hlead, ← hlead', (List.cons.inj h).1]

theorem compact_append_ne {v : Value} (hv : v.allFinite = true) (t r : List UInt8) :
    v.compact ++ t ≠ 0x5d :: r := by
  obtain ⟨c, t', hc, hlead⟩ := compact_eq_cons hff hv
  intro h
  rw [hc] at h
  rw [(List.cons.inj h).1, show lead 0x5d = 0x5d from by decide] at hlead
  cases v with
  | bool b => cases b <;> simp [mark] at hlead
  | _ => simp [mark] at hlead

omit hff in
/-- Objects, if the values inside can be told apart: an object is closed by its
brace, so nothing is asked of what follows it. -/
theorem object_append_inj {fields fields' : List (Str × Value)}
    (ih : ∀ f ∈ fields, ∀ w : Value, f.2.allFinite = true → w.allFinite = true → ∀ r s,
      Stops isNumeric r → Stops isNumeric s → f.2.compact ++ r = w.compact ++ s →
      f.2 = w ∧ r = s)
    (hv : (object fields).allFinite = true) (hw : (object fields').allFinite = true)
    {r s : List UInt8} (h : (object fields).compact ++ r = (object fields').compact ++ s) :
    fields = fields' ∧ r = s := by
  rw [compact, compact, compactFields_eq, compactFields_eq, List.cons_append, List.cons_append,
    List.append_assoc, List.append_assoc] at h
  have hfields := allFiniteFields_iff.mp hv
  have hfield : ∀ f ∈ fields, ∀ f' : Str × Value, f'.2.allFinite = true → ∀ r s,
      Stops isNumeric r → Stops isNumeric s → compactField f ++ r = compactField f' ++ s →
      f = f' ∧ r = s := by
    intro f hf f' hf' r s hr hs h
    rw [compactField, compactField, List.append_assoc, List.append_assoc] at h
    obtain ⟨hkey, h⟩ := compactStr_append_inj h
    obtain ⟨hvalue, hrs⟩ := ih f hf f'.2 (hfields f hf) hf' r s hr hs (List.cons.inj h).2
    exact ⟨Prod.ext hkey hvalue, hrs⟩
  exact sepBy_injective not_isNumeric_comma (by decide) (by decide)
    (fun f _ t r h => by simp [compactField, compactStr] at h) hfields hfield
    (allFiniteFields_iff.mp hw) (List.cons.inj h).2

/-- **The text of a value shows where it ends**: by induction on the value. -/
theorem compact_separable : Separable isNumeric (fun v : Value => v.allFinite = true) compact := by
  intro v
  induction v using Value.ind with
  | null =>
    intro w hv hw r s _ _ h
    have hmark := mark_eq hff hv hw h
    cases w with
    | null => exact ⟨rfl, List.append_cancel_left h⟩
    | bool b => cases b <;> simp [mark] at hmark
    | _ => simp [mark] at hmark
  | bool b =>
    intro w hv hw r s _ _ h
    have hmark := mark_eq hff hv hw h
    cases w with
    | bool b' =>
      have hb : b = b' := by cases b <;> cases b' <;> simp [mark] at hmark ⊢
      subst hb
      exact ⟨rfl, List.append_cancel_left h⟩
    | _ => cases b <;> simp [mark] at hmark
  | number n =>
    intro w hv hw r s hr hs h
    have hmark := mark_eq hff hv hw h
    cases w with
    | number m =>
      have hfin : ∀ n : Number, (Value.number n).allFinite = true → n.IsFinite := by
        intro n hn
        cases n <;> first | exact hn | trivial
      obtain ⟨rfl, hrs⟩ := Number.compact_separable hff n m (hfin n hv) (hfin m hw) r s hr hs h
      exact ⟨rfl, hrs⟩
    | bool b => cases b <;> simp [mark] at hmark
    | _ => simp [mark] at hmark
  | string u =>
    intro w hv hw r s _ _ h
    have hmark := mark_eq hff hv hw h
    cases w with
    | string u' =>
      obtain ⟨rfl, hrs⟩ := compactStr_append_inj h
      exact ⟨rfl, hrs⟩
    | bool b => cases b <;> simp [mark] at hmark
    | _ => simp [mark] at hmark
  | array items ih =>
    intro w hv hw r s _ _ h
    have hmark := mark_eq hff hv hw h
    cases w with
    | array items' =>
      rw [compact, compact, compactItems_eq, compactItems_eq, List.cons_append, List.cons_append,
        List.append_assoc, List.append_assoc] at h
      have hitems := allFiniteItems_iff.mp hv
      obtain ⟨rfl, hrs⟩ := sepBy_injective not_isNumeric_comma (by decide) (by decide)
        (fun y hy t r => compact_append_ne hff hy t r) hitems
        (fun x hx y hy => ih x hx y (hitems x hx) hy) (allFiniteItems_iff.mp hw) (List.cons.inj h).2
      exact ⟨rfl, hrs⟩
    | bool b => cases b <;> simp [mark] at hmark
    | _ => simp [mark] at hmark
  | object fields ih =>
    intro w hv hw r s _ _ h
    have hmark := mark_eq hff hv hw h
    cases w with
    | object fields' =>
      obtain ⟨rfl, hrs⟩ := object_append_inj ih hv hw h
      exact ⟨rfl, hrs⟩
    | bool b => cases b <;> simp [mark] at hmark
    | _ => simp [mark] at hmark

end Value

/-- **The text of a map determines the map**, and what follows it. -/
theorem compactMap_append_inj [FloatFormat] (hff : FloatFormat.Lawful) {m m' : List (Str × Value)}
    (hm : Value.allFiniteFields m = true) (hm' : Value.allFiniteFields m' = true)
    {r s : List UInt8} (h : compactMap m ++ r = compactMap m' ++ s) : m = m' ∧ r = s :=
  Value.object_append_inj (fun f _ => Value.compact_separable hff f.2) hm hm' h

end Record
end ElaraMesh
