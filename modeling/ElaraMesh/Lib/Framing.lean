import Mathlib.Data.Nat.Digits.Lemmas
import Mathlib.Data.List.Basic

/-!
# Telling encodings apart

Bytes are written one field after the other.  What was written can be read off if
each field either has a known length or shows where it ends.

## Main results

* `bigEndian_injective`, `bigEndian_ofBigEndian` — numbers in bytes.
* `sized_append_inj`, `counted_append_inj` — bytes and words behind their number.
* `separable_of_run` — a run of elements of one kind.
* `separable_terminated` — a coded word up to its terminator.
* `flatMap_netstring_injective` — words behind their length in decimal digits.
* `sepBy_injective` — lists with separators, up to the closing element.
-/

namespace Framing

/-! ### Numbers in bytes -/

/-- The `w` lowest bytes of a number, the highest first. -/
def bigEndian : ℕ → ℕ → List UInt8
  | 0, _ => []
  | w + 1, n => bigEndian w (n / 256) ++ [UInt8.ofNat n]

/-- The number some bytes stand for, the highest first. -/
def ofBigEndian (l : List UInt8) : ℕ := l.foldl (fun n b => n * 256 + b.toNat) 0

@[simp] theorem length_bigEndian : ∀ w n : ℕ, (bigEndian w n).length = w
  | 0, _ => rfl
  | w + 1, n => by simp [bigEndian, length_bigEndian w]

theorem ofBigEndian_concat (l : List UInt8) (b : UInt8) :
    ofBigEndian (l ++ [b]) = ofBigEndian l * 256 + b.toNat := by
  simp [ofBigEndian]

theorem ofBigEndian_bigEndian : ∀ w n : ℕ, ofBigEndian (bigEndian w n) = n % 256 ^ w := by
  intro w
  induction w with
  | zero => intro n; simp [bigEndian, ofBigEndian, Nat.mod_one]
  | succ w ih =>
    intro n
    have hpow : 256 ^ (w + 1) = 256 * 256 ^ w := Nat.pow_succ'
    rw [bigEndian, ofBigEndian_concat, ih, UInt8.toNat_ofNat', hpow, Nat.mod_mul]
    omega

theorem bigEndian_injective {w n m : ℕ} (hn : n < 256 ^ w) (hm : m < 256 ^ w)
    (h : bigEndian w n = bigEndian w m) : n = m := by
  have := congrArg ofBigEndian h
  rwa [ofBigEndian_bigEndian, ofBigEndian_bigEndian, Nat.mod_eq_of_lt hn, Nat.mod_eq_of_lt hm]
    at this

/-- The `w` lowest bytes of a number, the lowest first. -/
def littleEndian (w n : ℕ) : List UInt8 := (bigEndian w n).reverse

theorem ofBigEndian_lt (l : List UInt8) : ofBigEndian l < 256 ^ l.length := by
  induction l using List.reverseRecOn with
  | nil => simp [ofBigEndian]
  | append_singleton l b ih =>
    rw [ofBigEndian_concat, List.length_append, List.length_singleton, Nat.pow_succ]
    have := b.toNat_lt
    omega

theorem bigEndian_ofBigEndian (l : List UInt8) : bigEndian l.length (ofBigEndian l) = l := by
  induction l using List.reverseRecOn with
  | nil => rfl
  | append_singleton l b ih =>
    have hlt := b.toNat_lt
    rw [ofBigEndian_concat, List.length_append, List.length_singleton, bigEndian]
    have hdiv : (ofBigEndian l * 256 + b.toNat) / 256 = ofBigEndian l := by omega
    have hmod : UInt8.ofNat (ofBigEndian l * 256 + b.toNat) = b := by
      apply UInt8.toNat_inj.mp
      rw [UInt8.toNat_ofNat']
      omega
    rw [hdiv, hmod, ih]

theorem bigEndian_append_inj {w n m : ℕ} (hn : n < 256 ^ w) (hm : m < 256 ^ w) {r s : List UInt8}
    (h : bigEndian w n ++ r = bigEndian w m ++ s) : n = m ∧ r = s := by
  obtain ⟨hnm, hrs⟩ := List.append_inj h (by simp)
  exact ⟨bigEndian_injective hn hm hnm, hrs⟩

/-! ### Lengths in front -/

/-- Bytes with their number in front. -/
def sized (w : ℕ) (l : List UInt8) : List UInt8 := bigEndian w l.length ++ l

theorem length_sized (w : ℕ) (l : List UInt8) : (sized w l).length = w + l.length := by
  rw [sized, List.length_append, length_bigEndian]

theorem sized_append_inj {w : ℕ} {l l' : List UInt8} (hl : l.length < 256 ^ w)
    (hl' : l'.length < 256 ^ w) {r s : List UInt8} (h : sized w l ++ r = sized w l' ++ s) :
    l = l' ∧ r = s := by
  unfold sized at h
  rw [List.append_assoc, List.append_assoc] at h
  obtain ⟨hlen, h⟩ := bigEndian_append_inj hl hl' h
  exact List.append_inj h hlen

/-- Words with their number in front, each with its length in front. -/
def counted (w : ℕ) (words : List (List UInt8)) : List UInt8 :=
  bigEndian w words.length ++ words.flatMap (sized w)

theorem flatMap_sized_append_inj {w : ℕ} {words words' : List (List UInt8)}
    (hl : ∀ l ∈ words, l.length < 256 ^ w) (hl' : ∀ l ∈ words', l.length < 256 ^ w)
    (hcount : words.length = words'.length) {r s : List UInt8}
    (h : words.flatMap (sized w) ++ r = words'.flatMap (sized w) ++ s) :
    words = words' ∧ r = s := by
  induction words generalizing words' with
  | nil =>
    rw [List.eq_nil_of_length_eq_zero hcount.symm] at h ⊢
    exact ⟨rfl, h⟩
  | cons l words ih =>
    obtain ⟨l', words', rfl⟩ := List.exists_of_length_succ words' hcount.symm
    rw [List.flatMap_cons, List.flatMap_cons, List.append_assoc, List.append_assoc] at h
    obtain ⟨rfl, hrest⟩ := sized_append_inj (hl l List.mem_cons_self) (hl' l' List.mem_cons_self) h
    obtain ⟨rfl, hrs⟩ := ih (fun k hk => hl k (List.mem_cons_of_mem l hk))
      (fun k hk => hl' k (List.mem_cons_of_mem l hk)) (Nat.succ_injective hcount) hrest
    exact ⟨rfl, hrs⟩

theorem counted_append_inj {w : ℕ} {words words' : List (List UInt8)}
    (hn : words.length < 256 ^ w) (hn' : words'.length < 256 ^ w)
    (hl : ∀ l ∈ words, l.length < 256 ^ w) (hl' : ∀ l ∈ words', l.length < 256 ^ w)
    {r s : List UInt8} (h : counted w words ++ r = counted w words' ++ s) :
    words = words' ∧ r = s := by
  unfold counted at h
  rw [List.append_assoc, List.append_assoc] at h
  obtain ⟨hcount, h⟩ := bigEndian_append_inj hn hn' h
  exact flatMap_sized_append_inj hl hl' hcount h

/-! ### Decimal digits -/

/-- The decimal digits of a number, in ASCII. -/
def decimal (n : ℕ) : List UInt8 :=
  if n = 0 then [48] else (Nat.digits 10 n).reverse.map fun d => UInt8.ofNat (48 + d)

theorem digit_of_mem_decimal {n : ℕ} {c : UInt8} (hc : c ∈ decimal n) : 48 ≤ c ∧ c ≤ 57 := by
  unfold decimal at hc
  split at hc
  · rw [List.mem_singleton.mp hc]
    decide
  · obtain ⟨d, hd, rfl⟩ := List.mem_map.mp hc
    have hlt : d < 10 := Nat.digits_lt_base (by decide) (List.mem_reverse.mp hd)
    interval_cases d <;> decide

theorem decimal_ne_nil (n : ℕ) : decimal n ≠ [] := by
  unfold decimal
  split
  · simp
  · next h => simpa [Nat.digits_eq_nil_iff_eq_zero] using h

/-- The value of the digits gives the number back. -/
theorem foldl_decimal (n : ℕ) : (decimal n).foldl (fun m c => m * 10 + (c.toNat - 48)) 0 = n := by
  unfold decimal
  split
  · next h => subst h; rfl
  · have hstep : ∀ ds : List ℕ, (∀ d ∈ ds, d < 10) →
        ds.foldr (fun d m => m * 10 + ((UInt8.ofNat (48 + d)).toNat - 48)) 0 =
          Nat.ofDigits 10 ds := by
      intro ds
      induction ds with
      | nil => intro _; rfl
      | cons d ds ih =>
        intro hds
        obtain ⟨hd, hds⟩ := List.forall_mem_cons.mp hds
        rw [List.foldr_cons, ih hds, Nat.ofDigits_cons, UInt8.toNat_ofNat']
        push_cast
        omega
    rw [List.foldl_map, List.foldl_reverse, hstep _ fun d hd => Nat.digits_lt_base (by decide) hd,
      Nat.ofDigits_digits]

theorem decimal_injective : Function.Injective decimal := by
  intro n m h
  rw [← foldl_decimal n, ← foldl_decimal m, h]

/-! ### Encodings that show where they end -/

variable {α β : Type*}

/-- The list does not go on with an element of `cont`. -/
def Stops (cont : β → Prop) (r : List β) : Prop := ∀ c ∈ r.head?, ¬ cont c

theorem stops_nil (cont : β → Prop) : Stops cont [] := by simp [Stops]

theorem stops_cons {cont : β → Prop} {c : β} {r : List β} (hc : ¬ cont c) :
    Stops cont (c :: r) := by
  simpa [Stops] using hc

/-- Encodings of the values `ok` can be told apart from what follows, if that does
not go on with an element of `cont`. -/
def Separable (cont : β → Prop) (ok : α → Prop) (enc : α → List β) : Prop :=
  ∀ a b, ok a → ok b → ∀ r s, Stops cont r → Stops cont s → enc a ++ r = enc b ++ s →
    a = b ∧ r = s

/-- Two runs of elements of one kind, each followed by something else. -/
theorem run_append_inj {cont : β → Prop} {l l' r s : List β} (hl : ∀ c ∈ l, cont c)
    (hl' : ∀ c ∈ l', cont c) (hr : Stops cont r) (hs : Stops cont s) (h : l ++ r = l' ++ s) :
    l = l' ∧ r = s := by
  induction l generalizing l' with
  | nil =>
    cases l' with
    | nil => exact ⟨rfl, h⟩
    | cons c l' =>
      rw [List.nil_append] at h
      subst h
      exact absurd (hl' c List.mem_cons_self) (hr c rfl)
  | cons c l ih =>
    cases l' with
    | nil =>
      rw [List.nil_append] at h
      subst h
      exact absurd (hl c List.mem_cons_self) (hs c rfl)
    | cons c' l' =>
      obtain ⟨rfl, htail⟩ := List.cons.inj h
      obtain ⟨rfl, hrs⟩ := ih (fun d hd => hl d (List.mem_cons_of_mem c hd))
        (fun d hd => hl' d (List.mem_cons_of_mem c hd)) htail
      exact ⟨rfl, hrs⟩

/-- Encodings that are runs of elements of `cont`. -/
theorem separable_of_run {cont : β → Prop} {ok : α → Prop} {enc : α → List β}
    (hrun : ∀ a, ok a → ∀ c ∈ enc a, cont c)
    (hinj : ∀ a b, ok a → ok b → enc a = enc b → a = b) : Separable cont ok enc := by
  intro a b ha hb r s hr hs h
  obtain ⟨henc, hrs⟩ := run_append_inj (hrun a ha) (hrun b hb) hr hs h
  exact ⟨hinj a b ha hb henc, hrs⟩

/-- Words in a code, up to a terminator that no code word starts with. -/
theorem separable_terminated {code : α → List β} {close : β}
    (hcode : ∀ a b r s, code a ++ r = code b ++ s → a = b ∧ r = s)
    (hclose : ∀ a, (code a).head? ≠ some close) (hne : ∀ a, code a ≠ []) :
    ∀ (l l' : List α) (r s : List β),
      l.flatMap code ++ close :: r = l'.flatMap code ++ close :: s → l = l' ∧ r = s := by
  -- a code word cannot be the terminator
  have hfirst : ∀ a t r, code a ++ t ≠ close :: r := by
    intro a t r h
    cases hc : code a with
    | nil => exact hne a hc
    | cons c cs =>
      rw [hc] at h
      have := (List.cons.inj h).1
      exact hclose a (by rw [hc, this]; rfl)
  intro l
  induction l with
  | nil =>
    intro l' r s h
    cases l' with
    | nil => exact ⟨rfl, (List.cons.inj h).2⟩
    | cons a l' =>
      rw [List.flatMap_cons, List.append_assoc] at h
      exact absurd h.symm (hfirst a _ _)
  | cons a l ih =>
    intro l' r s h
    cases l' with
    | nil =>
      rw [List.flatMap_cons, List.append_assoc] at h
      exact absurd h (hfirst a _ _)
    | cons b l' =>
      rw [List.flatMap_cons, List.flatMap_cons, List.append_assoc, List.append_assoc] at h
      obtain ⟨rfl, htail⟩ := hcode a b _ _ h
      obtain ⟨rfl, hrs⟩ := ih l' r s htail
      exact ⟨rfl, hrs⟩

/-- Words one after the other, when the lengths of the words are known. -/
theorem flatMap_append_inj {enc : α → List β} (hinj : Function.Injective enc) :
    ∀ {l l' : List α}, l.map (fun a => (enc a).length) = l'.map (fun a => (enc a).length) →
    ∀ {r s : List β}, l.flatMap enc ++ r = l'.flatMap enc ++ s → l = l' ∧ r = s := by
  intro l
  induction l with
  | nil =>
    intro l' hlen r s h
    rw [List.map_nil, eq_comm, List.map_eq_nil_iff] at hlen
    subst hlen
    exact ⟨rfl, h⟩
  | cons a l ih =>
    intro l' hlen r s h
    cases l' with
    | nil => simp at hlen
    | cons b l' =>
      obtain ⟨hab, hlen⟩ := List.cons.inj hlen
      rw [List.flatMap_cons, List.flatMap_cons, List.append_assoc, List.append_assoc] at h
      obtain ⟨henc, h⟩ := List.append_inj h hab
      obtain ⟨rfl, hrs⟩ := ih hlen h
      exact ⟨by rw [hinj henc], hrs⟩

/-- Words in a code that can be told apart from what follows. -/
theorem flatMap_injective {code : α → List β}
    (hcode : ∀ a b r s, code a ++ r = code b ++ s → a = b ∧ r = s) (hne : ∀ a, code a ≠ []) :
    Function.Injective (List.flatMap code) := by
  intro l
  induction l with
  | nil =>
    intro l' h
    cases l' with
    | nil => rfl
    | cons b l' =>
      rw [List.flatMap_nil, List.flatMap_cons] at h
      exact absurd (List.append_eq_nil_iff.mp h.symm).1 (hne b)
  | cons a l ih =>
    intro l' h
    cases l' with
    | nil =>
      rw [List.flatMap_nil, List.flatMap_cons] at h
      exact absurd (List.append_eq_nil_iff.mp h).1 (hne a)
    | cons b l' =>
      rw [List.flatMap_cons, List.flatMap_cons] at h
      obtain ⟨rfl, htail⟩ := hcode a b _ _ h
      rw [ih htail]

/-- Bytes between their number, in decimal digits, and a comma. -/
def netstring (l : List UInt8) : List UInt8 := decimal l.length ++ 0x3a :: (l ++ [0x2c])

theorem netstring_append_inj (l l' r s : List UInt8) (h : netstring l ++ r = netstring l' ++ s) :
    l = l' ∧ r = s := by
  simp only [netstring, List.append_assoc, List.cons_append, List.nil_append] at h
  have hdigits : ∀ n, ∀ c ∈ decimal n, 48 ≤ c ∧ c ≤ 57 := fun _ _ hc => digit_of_mem_decimal hc
  -- the digits end at the colon
  obtain ⟨hlength, h⟩ := run_append_inj (hdigits l.length) (hdigits l'.length)
    (stops_cons (by decide)) (stops_cons (by decide)) h
  obtain ⟨hl, h⟩ := List.append_inj (List.cons.inj h).2 (decimal_injective hlength)
  exact ⟨hl, (List.cons.inj h).2⟩

/-- Netstrings one after the other determine the words. -/
theorem flatMap_netstring_injective : Function.Injective (List.flatMap netstring) :=
  flatMap_injective netstring_append_inj fun l h =>
    decimal_ne_nil l.length (List.append_eq_nil_iff.mp h).1

/-! ### Lists with separators -/

/-- The given words with separators in between; one in front, too, unless this is
the first word. -/
def sepBy (sep : β) : Bool → List (List β) → List β
  | _, [] => []
  | first, x :: xs => (if first then [] else [sep]) ++ x ++ sepBy sep false xs

theorem stops_sepBy {cont : β → Prop} {sep close : β} (hsep : ¬ cont sep) (hclose : ¬ cont close)
    (xs : List (List β)) (r : List β) : Stops cont (sepBy sep false xs ++ close :: r) := by
  cases xs with
  | nil => exact stops_cons hclose
  | cons x xs => exact stops_cons hsep

section

variable {cont : β → Prop} {ok : α → Prop} {item : α → List β} {sep close : β}

theorem sepBy_cons_ne (hne : sep ≠ close) (hhead : ∀ y, ok y → ∀ t r, item y ++ t ≠ close :: r)
    {y : α} (hy : ok y) (first : Bool) (xs : List (List β)) (r s : List β) :
    sepBy sep first (item y :: xs) ++ s ≠ close :: r := by
  rw [sepBy, List.append_assoc, List.append_assoc]
  cases first with
  | true => exact hhead y hy _ r
  | false =>
    intro h
    exact hne (List.cons.inj h).1

/-- Lists with separators can be told apart, up to the closing element. -/
theorem sepBy_injective (hsep : ¬ cont sep) (hclose : ¬ cont close) (hne : sep ≠ close)
    (hhead : ∀ y, ok y → ∀ t r, item y ++ t ≠ close :: r) :
    ∀ {xs : List α}, (∀ x ∈ xs, ok x) →
    (∀ x ∈ xs, ∀ y, ok y → ∀ r s, Stops cont r → Stops cont s → item x ++ r = item y ++ s →
      x = y ∧ r = s) →
    ∀ {ys : List α}, (∀ y ∈ ys, ok y) → ∀ {first : Bool} {r s : List β},
      sepBy sep first (xs.map item) ++ close :: r = sepBy sep first (ys.map item) ++ close :: s →
      xs = ys ∧ r = s := by
  intro xs
  induction xs with
  | nil =>
    intro _ _ ys hys first r s h
    cases ys with
    | nil => exact ⟨rfl, (List.cons.inj h).2⟩
    | cons y ys => exact absurd h.symm (sepBy_cons_ne hne hhead (hys y List.mem_cons_self) _ _ _ _)
  | cons x xs ih =>
    intro hxs hitem ys hys first r s h
    cases ys with
    | nil => exact absurd h (sepBy_cons_ne hne hhead (hxs x List.mem_cons_self) _ _ _ _)
    | cons y ys =>
      rw [List.map_cons, List.map_cons, sepBy, sepBy, List.append_assoc, List.append_assoc,
        List.append_assoc, List.append_assoc] at h
      obtain ⟨rfl, htail⟩ := hitem x List.mem_cons_self y (hys y List.mem_cons_self) _ _
        (stops_sepBy hsep hclose _ _) (stops_sepBy hsep hclose _ _) (List.append_cancel_left h)
      obtain ⟨rfl, hrs⟩ := ih (fun z hz => hxs z (List.mem_cons_of_mem x hz))
        (fun z hz => hitem z (List.mem_cons_of_mem x hz))
        (fun z hz => hys z (List.mem_cons_of_mem x hz)) htail
      exact ⟨rfl, hrs⟩

end

end Framing
