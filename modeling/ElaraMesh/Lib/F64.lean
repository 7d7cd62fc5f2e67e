import Mathlib.Algebra.GroupWithZero.Nat
import Mathlib.Algebra.Order.Group.Int
import Mathlib.Data.Int.Notation
import Mathlib.Order.Lattice
import Mathlib.Tactic.Common
import Mathlib.Tactic.Ring

/-!
# Double-precision floats

A float is its 64 bits, and the operations are those of IEEE 754 with rounding to
the nearest value, ties to even.  A finite value is a whole number of units of
`2 ^ (-1074)`, so sums and products are exact integers that are rounded once.

## Main results

* `F64.abs_sub_comm` — the distance of two floats does not depend on their order.
* `F64.lt_of_lt_of_le`, `F64.lt_of_le_of_lt` — the numbers among the floats are ordered.
* `F64.sub_le_sub` — rounding keeps the order, so taking off one finite float does too.
-/

/-- A double-precision float. -/
structure F64 where
  bits : UInt64
  deriving DecidableEq

namespace F64

/-- What the bits of a float stand for: a finite value by its sign and its number of
units of `2 ^ (-1074)`. -/
inductive View where
  | nan : View
  | inf (neg : Bool) : View
  | fin (neg : Bool) (mag : ℕ) : View
  deriving DecidableEq

def signBit (x : F64) : Bool := 2 ^ 63 ≤ x.bits.toNat

/-- The bits without the sign. -/
def magBits (x : F64) : ℕ := x.bits.toNat % 2 ^ 63

/-- The float with a sign and the other bits. -/
def pack (neg : Bool) (mag : ℕ) : F64 :=
  ⟨UInt64.ofNat (mag + if neg then 2 ^ 63 else 0)⟩

def infBits : ℕ := 2047 * 2 ^ 52

/-- What a sign and the other bits stand for. -/
def viewOf (neg : Bool) (mag : ℕ) : View :=
  let exponent := mag / 2 ^ 52
  let fraction := mag % 2 ^ 52
  if exponent = 2047 then if fraction = 0 then .inf neg else .nan
  else if exponent = 0 then .fin neg fraction
  else .fin neg ((2 ^ 52 + fraction) * 2 ^ (exponent - 1))

def view (x : F64) : View := viewOf x.signBit x.magBits

theorem magBits_lt (x : F64) : x.magBits < 2 ^ 63 := Nat.mod_lt _ (by decide)

variable {mag m n : ℕ} {x y z : F64}

theorem signBit_pack {neg : Bool} (h : mag < 2 ^ 63) :
    (pack neg mag).signBit = neg := by
  unfold signBit pack
  cases neg
  · simp only [Bool.false_eq_true, if_false, Nat.add_zero, UInt64.toNat_ofNat', decide_eq_false_iff_not]
    omega
  · simp only [if_true, UInt64.toNat_ofNat', decide_eq_true_eq]
    omega

theorem magBits_pack {neg : Bool} (h : mag < 2 ^ 63) :
    (pack neg mag).magBits = mag := by
  unfold magBits pack
  cases neg
  · simp only [Bool.false_eq_true, if_false, Nat.add_zero, UInt64.toNat_ofNat']
    omega
  · simp only [if_true, UInt64.toNat_ofNat']
    omega

theorem view_pack {neg : Bool} (h : mag < 2 ^ 63) :
    (pack neg mag).view = viewOf neg mag := by
  rw [view, signBit_pack h, magBits_pack h]

/-! ### Rounding -/

/-- The nearest whole number to `num / 2 ^ q`, the even one if there are two. -/
def halfEven (num q : ℕ) : ℕ :=
  let k := num / 2 ^ q
  let r := num % 2 ^ q
  if 2 ^ q < 2 * r ∨ (2 * r = 2 ^ q ∧ k % 2 = 1) then k + 1 else k

/-- The bits of the float nearest to `num / 2 ^ shift` units: 53 leading bits are kept,
and no less than a unit. -/
def roundBits (num shift : ℕ) : ℕ :=
  let q := Nat.max (num.log2 + 1 - 53) shift
  -- the exponent counts in steps of the leading bit, and a carry moves it up by one
  min (halfEven num q + (q - shift) * 2 ^ 52) infBits

/-- The float nearest to `num / 2 ^ shift` units. -/
def round (neg : Bool) (num shift : ℕ) : F64 := pack neg (roundBits num shift)

theorem roundBits_lt (num shift : ℕ) : roundBits num shift < 2 ^ 63 :=
  (Nat.min_le_right _ _).trans_lt (by decide)

/-! ### Constants -/

def nan : F64 := pack false (infBits + 2 ^ 51)

def inf (neg : Bool) : F64 := pack neg infBits

def zero : F64 := pack false 0

/-- A unit of the integers, in units of `2 ^ (-1074)`. -/
def one : ℕ := 2 ^ 1074

/-- The float nearest to a natural number. -/
def ofNat (n : ℕ) : F64 := round false (n * one) 0

def half : F64 := round false one 1

/-! ### Arithmetic -/

/-- The same magnitude with the other sign. -/
def neg (x : F64) : F64 := pack (!x.signBit) x.magBits

/-- The same magnitude without a sign. -/
def abs (x : F64) : F64 := pack false x.magBits

def addView : View → View → F64
  | .nan, _ => nan
  | _, .nan => nan
  | .inf a, .inf b => if a = b then inf a else nan
  | .inf a, .fin _ _ => inf a
  | .fin _ _, .inf b => inf b
  | .fin a m, .fin b n =>
    if a = b then round a (m + n) 0
    else if m = n then zero
    else if n < m then round a (m - n) 0
    else round b (n - m) 0

def add (x y : F64) : F64 := addView x.view y.view

def sub (x y : F64) : F64 := x.add y.neg

def mul (x y : F64) : F64 :=
  match x.view, y.view with
  | .nan, _ => nan
  | _, .nan => nan
  | .inf a, .inf b => inf (a != b)
  | .inf a, .fin b n => if n = 0 then nan else inf (a != b)
  | .fin a m, .inf b => if m = 0 then nan else inf (a != b)
  | .fin a m, .fin b n => round (a != b) (m * n) 1074

def div (x y : F64) : F64 :=
  match x.view, y.view with
  | .nan, _ => nan
  | _, .nan => nan
  | .inf _, .inf _ => nan
  | .inf a, .fin b _ => inf (a != b)
  | .fin a _, .inf b => pack (a != b) 0
  | .fin a m, .fin b n =>
    if n = 0 then if m = 0 then nan else inf (a != b)
    else
      -- a bit below all that are kept says that there is a rest
      let quotient := m * one * 2 ^ 64 / n
      let rest := if m * one * 2 ^ 64 % n = 0 then 0 else 1
      round (a != b) (2 * quotient + rest) 65

/-- The largest whole number that is not larger. -/
def floor (x : F64) : F64 :=
  match x.view with
  | .fin false m => round false (m / one * one) 0
  | .fin true m => round true ((m + (one - 1)) / one * one) 0
  | _ => x

/-- Farther from zero than all finite values. -/
def far : ℕ := 2 ^ 2100

/-- A number of units with its sign. -/
def signed (neg : Bool) (m : ℕ) : ℤ := if neg then -m else m

/-- The place of a float on the line, unless it is not a number. -/
def place (x : F64) : Option ℤ :=
  match x.view with
  | .nan => none
  | .inf neg => some (signed neg far)
  | .fin neg m => some (signed neg m)

def cmpPlace (rel : ℤ → ℤ → Bool) (x y : F64) : Bool :=
  match x.place, y.place with
  | some a, some b => rel a b
  | _, _ => false

/-- Less than, false if one is not a number. -/
def lt : F64 → F64 → Bool := cmpPlace fun a b => a < b

/-- At most, false if one is not a number. -/
def le : F64 → F64 → Bool := cmpPlace fun a b => a ≤ b

/-- The larger one; a number, if one is. -/
def max (x y : F64) : F64 := if x.place = none ∨ x.lt y then y else x

def isFinite (x : F64) : Bool :=
  match x.view with
  | .fin _ _ => true
  | _ => false

/-- The place of a float in the order of all bit patterns. -/
def totalKey (x : F64) : ℤ := if x.signBit then -x.magBits - 1 else x.magBits

/-- Conversion to an unsigned integer: towards zero, within `0` and `bound`. -/
def toNat (bound : ℕ) (x : F64) : ℕ :=
  match x.view with
  | .nan => 0
  | .inf neg => if neg then 0 else bound
  | .fin neg m => if neg then 0 else min (m / one) bound

example : (ofNat 3).bits = 0x4008000000000000 := by decide +kernel
example : (half.add (ofNat 1)).bits = 0x3ff8000000000000 := by decide +kernel
example : (((ofNat 7).sub (ofNat 9)).abs.le (ofNat 2)) = true := by decide +kernel

/-! ### The distance of two floats -/

theorem viewOf_not (neg : Bool) (mag : ℕ) :
    viewOf (!neg) mag =
      match viewOf neg mag with
      | .nan => .nan
      | .inf b => .inf !b
      | .fin b m => .fin (!b) m := by
  unfold viewOf
  dsimp only
  split
  · split <;> rfl
  · split <;> rfl

theorem view_neg (x : F64) :
    x.neg.view =
      match x.view with
      | .nan => .nan
      | .inf b => .inf !b
      | .fin b m => .fin (!b) m := by
  rw [neg, view_pack x.magBits_lt, viewOf_not]
  rfl

theorem abs_pack {neg : Bool} (h : mag < 2 ^ 63) : (pack neg mag).abs = pack false mag := by
  rw [abs, magBits_pack h]

theorem abs_round (neg neg' : Bool) (num shift : ℕ) :
    (round neg num shift).abs = (round neg' num shift).abs := by
  rw [round, round, abs_pack (roundBits_lt _ _), abs_pack (roundBits_lt _ _)]

theorem abs_inf (neg neg' : Bool) : (inf neg).abs = (inf neg').abs := by
  rw [inf, inf, abs_pack (by decide), abs_pack (by decide)]

/-- **The distance of two floats does not depend on their order.** -/
theorem abs_sub_comm (x y : F64) : (x.sub y).abs = (y.sub x).abs := by
  unfold sub add
  rw [view_neg, view_neg]
  cases x.view with
  | nan => cases y.view <;> rfl
  | inf a =>
    cases y.view with
    | nan => rfl
    | inf b =>
      cases a <;> cases b <;> rfl
    | fin b n => exact abs_inf _ _
  | fin a m =>
    cases y.view with
    | nan => rfl
    | inf b => exact abs_inf _ _
    | fin b n =>
      unfold addView
      dsimp only
      by_cases hab : a = !b
      · -- the magnitudes add up
        have hba : b = !a := by rw [hab, Bool.not_not]
        rw [if_pos hab, if_pos hba, Nat.add_comm]
        exact abs_round _ _ _ _
      · have hba : ¬ b = !a := by
          intro hba
          exact hab (by rw [hba, Bool.not_not])
        rw [if_neg hab, if_neg hba]
        rcases Nat.lt_trichotomy m n with hlt | rfl | hgt
        · rw [if_neg (by omega), if_neg (by omega), if_neg (by omega), if_pos hlt]
          exact abs_round _ _ _ _
        · rw [if_pos rfl, if_pos rfl]
        · rw [if_neg (by omega), if_pos hgt, if_neg (by omega), if_neg (by omega)]
          exact abs_round _ _ _ _

/-! ### Order -/

theorem le_iff : x.le y = true ↔ ∃ a ∈ x.place, ∃ b ∈ y.place, a ≤ b := by
  unfold le cmpPlace
  cases x.place <;> cases y.place <;> simp

theorem lt_iff : x.lt y = true ↔ ∃ a ∈ x.place, ∃ b ∈ y.place, a < b := by
  unfold lt cmpPlace
  cases x.place <;> cases y.place <;> simp

theorem lt_of_lt_of_le (hxy : x.lt y = true) (hyz : y.le z = true) : x.lt z = true := by
  obtain ⟨a, ha, b, hb, hab⟩ := lt_iff.mp hxy
  obtain ⟨b', hb', c, hc, hbc⟩ := le_iff.mp hyz
  obtain rfl := Option.mem_unique hb hb'
  exact lt_iff.mpr ⟨a, ha, c, hc, hab.trans_le hbc⟩

theorem lt_of_le_of_lt (hxy : x.le y = true) (hyz : y.lt z = true) : x.lt z = true := by
  obtain ⟨a, ha, b, hb, hab⟩ := le_iff.mp hxy
  obtain ⟨b', hb', c, hc, hbc⟩ := lt_iff.mp hyz
  obtain rfl := Option.mem_unique hb hb'
  exact lt_iff.mpr ⟨a, ha, c, hc, hab.trans_lt hbc⟩

theorem signed_false (m : ℕ) : signed false m = m := rfl

theorem signed_true (m : ℕ) : signed true m = -m := rfl

theorem signed_bounds (neg : Bool) (m : ℕ) : -m ≤ signed neg m ∧ signed neg m ≤ m := by
  cases neg <;> simp only [signed_false, signed_true] <;> omega

theorem two_pow_lt_far {k : ℕ} (h : k < 2100) : 2 ^ k < far := by
  unfold far
  gcongr
  decide

/-- How far from zero the bits of a number are. -/
def magnitude (bits : ℕ) : ℕ :=
  if bits / 2 ^ 52 = 2047 then far
  else if bits / 2 ^ 52 = 0 then bits % 2 ^ 52
  else (2 ^ 52 + bits % 2 ^ 52) * 2 ^ (bits / 2 ^ 52 - 1)

theorem viewOf_eq {bits : ℕ} (neg : Bool) (h : bits / 2 ^ 52 ≠ 2047) :
    viewOf neg bits = .fin neg (magnitude bits) := by
  rw [viewOf, magnitude, if_neg h, if_neg h]
  split <;> rfl

theorem place_pack {bits : ℕ} (neg : Bool) (h : bits ≤ infBits) :
    (pack neg bits).place = some (signed neg (magnitude bits)) := by
  have hinf : infBits = 2047 * 2 ^ 52 := rfl
  rw [place, view_pack (h.trans_lt (by decide))]
  by_cases hexp : bits / 2 ^ 52 = 2047
  · have hfraction : bits % 2 ^ 52 = 0 := by omega
    rw [viewOf, magnitude, if_pos hexp, if_pos hexp, if_pos hfraction]
  · rw [viewOf_eq neg hexp]

theorem magnitude_le {bits : ℕ} (h : bits / 2 ^ 52 ≤ 2046) :
    magnitude bits ≤ 2 ^ 52 * 2 ^ (bits / 2 ^ 52) := by
  have hfraction : bits % 2 ^ 52 ≤ 2 ^ 52 := (Nat.mod_lt _ (by decide)).le
  rw [magnitude, if_neg (by omega)]
  split
  · next hzero =>
    rw [hzero]
    exact hfraction
  · next hpos =>
    calc (2 ^ 52 + bits % 2 ^ 52) * 2 ^ (bits / 2 ^ 52 - 1)
        ≤ (2 ^ 52 + 2 ^ 52) * 2 ^ (bits / 2 ^ 52 - 1) := by gcongr
      _ = 2 ^ 52 * 2 ^ (bits / 2 ^ 52 - 1 + 1) := by ring
      _ = _ := by rw [Nat.sub_add_cancel (Nat.pos_of_ne_zero hpos)]

theorem le_magnitude {bits : ℕ} (hpos : 0 < bits / 2 ^ 52) :
    2 ^ 52 * 2 ^ (bits / 2 ^ 52 - 1) ≤ magnitude bits := by
  rw [magnitude]
  split
  · next hexp =>
    rw [← Nat.pow_add]
    exact (two_pow_lt_far (by omega)).le
  · rw [if_neg hpos.ne']
    exact Nat.mul_le_mul_right _ (Nat.le_add_right _ _)

theorem magnitude_mono {a b : ℕ} (hab : a ≤ b) (hb : b ≤ infBits) : magnitude a ≤ magnitude b := by
  have hinf : infBits = 2047 * 2 ^ 52 := rfl
  rcases (Nat.div_le_div_right hab : a / 2 ^ 52 ≤ b / 2 ^ 52).eq_or_lt with hexp | hexp
  · have hfraction : a % 2 ^ 52 ≤ b % 2 ^ 52 := by omega
    unfold magnitude
    rw [hexp]
    split
    · exact le_rfl
    · split
      · exact hfraction
      · gcongr
  · calc magnitude a ≤ 2 ^ 52 * 2 ^ (a / 2 ^ 52) := magnitude_le (by omega)
      _ ≤ 2 ^ 52 * 2 ^ (b / 2 ^ 52 - 1) := by
        gcongr
        · decide
        · omega
      _ ≤ magnitude b := le_magnitude (by omega)

theorem halfEven_mono (h : m ≤ n) (q : ℕ) : halfEven m q ≤ halfEven n q := by
  have hquotient : m / 2 ^ q ≤ n / 2 ^ q := Nat.div_le_div_right h
  have hm := Nat.div_add_mod m (2 ^ q)
  have hn := Nat.div_add_mod n (2 ^ q)
  unfold halfEven
  dsimp only
  rcases hquotient.eq_or_lt with heq | hlt
  · -- the rests decide, and the parity is the same
    rw [heq] at hm ⊢
    split
    · rw [if_pos (by omega)]
    · split <;> omega
  · split <;> split <;> omega

theorem halfEven_le {q : ℕ} (h : n < 2 ^ (q + 53)) : halfEven n q ≤ 2 ^ 53 := by
  have hquotient : n / 2 ^ q < 2 ^ 53 := by
    rw [Nat.div_lt_iff_lt_mul (Nat.two_pow_pos q), ← Nat.pow_add, Nat.add_comm]
    exact h
  unfold halfEven
  dsimp only
  split <;> omega

theorem le_halfEven {q : ℕ} (h : 2 ^ (q + 52) ≤ n) : 2 ^ 52 ≤ halfEven n q := by
  have hquotient : 2 ^ 52 ≤ n / 2 ^ q := by
    rw [Nat.le_div_iff_mul_le (Nat.two_pow_pos q), ← Nat.pow_add, Nat.add_comm]
    exact h
  unfold halfEven
  dsimp only
  split <;> omega

theorem roundBits_le (n : ℕ) : roundBits n 0 ≤ infBits := Nat.min_le_right _ _

theorem roundBits_mono (h : m ≤ n) : roundBits m 0 ≤ roundBits n 0 := by
  have hlog : m.log2 ≤ n.log2 := by
    by_cases hm : m = 0
    · rw [hm]
      exact Nat.zero_le _
    · exact (Nat.le_log2 (by omega)).mpr ((Nat.log2_self_le hm).trans h)
  unfold roundBits
  dsimp only
  refine min_le_min_right _ ?_
  rw [show ∀ k, Nat.max k 0 = k from Nat.max_zero, show ∀ k, Nat.max k 0 = k from Nat.max_zero]
  rcases (show m.log2 + 1 - 53 ≤ n.log2 + 1 - 53 by omega).eq_or_lt with heq | hlt
  · rw [heq]
    exact Nat.add_le_add_right (halfEven_mono h _) _
  · have hm : halfEven m (m.log2 + 1 - 53) ≤ 2 ^ 53 := by
      refine halfEven_le (Nat.lt_log2_self.trans_le (Nat.pow_le_pow_right (by decide) ?_))
      omega
    have hn : 2 ^ 52 ≤ halfEven n (n.log2 + 1 - 53) := by
      have hself : 2 ^ n.log2 ≤ n := Nat.log2_self_le (by rintro rfl; simp at hlt)
      refine le_halfEven ((Nat.pow_le_pow_right (by decide) ?_).trans hself)
      omega
    have hstep := Nat.mul_le_mul_right (2 ^ 52) hlt
    omega

/-- The place of the float nearest to a whole number of units. -/
def rounded (s : ℤ) : ℤ := signed (s < 0) (magnitude (roundBits s.natAbs 0))

theorem magnitude_roundBits_mono (h : m ≤ n) :
    magnitude (roundBits m 0) ≤ magnitude (roundBits n 0) :=
  magnitude_mono (roundBits_mono h) (roundBits_le n)

theorem rounded_mono {s t : ℤ} (h : s ≤ t) : rounded s ≤ rounded t := by
  unfold rounded signed
  by_cases hs : s < 0
  · by_cases ht : t < 0
    · have := magnitude_roundBits_mono (show t.natAbs ≤ s.natAbs by omega)
      simp only [hs, ht, decide_true, if_true]
      omega
    · simp only [hs, ht, decide_true, decide_false, if_true, Bool.false_eq_true, if_false]
      omega
  · have := magnitude_roundBits_mono (show s.natAbs ≤ t.natAbs by omega)
    simp only [hs, not_lt.mpr (show 0 ≤ t by omega), decide_false, Bool.false_eq_true, if_false]
    omega

theorem rounded_bounds (s : ℤ) : -far ≤ rounded s ∧ rounded s ≤ far := by
  have hle : magnitude (roundBits s.natAbs 0) ≤ far :=
    (magnitude_mono (roundBits_le _) le_rfl).trans_eq (if_pos (by decide))
  unfold rounded signed
  split <;> constructor <;> omega

theorem place_round (neg : Bool) (n : ℕ) (h : neg = true → n ≠ 0) :
    (round neg n 0).place = some (rounded (signed neg n)) := by
  rw [round, place_pack neg (roundBits_le n), rounded]
  cases neg with
  | false => simp [signed]
  | true =>
    have hn : 0 < n := Nat.pos_of_ne_zero (h rfl)
    simp [signed, hn]

/-- The place of a sum is that of the exact sum, rounded. -/
theorem place_addView (a b : Bool) (m n : ℕ) :
    (addView (.fin a m) (.fin b n)).place = some (rounded (signed a m + signed b n)) := by
  have hzero : rounded 0 = 0 := by decide +kernel
  have hzeros : ∀ neg, (round neg 0 0).place = some 0 := by decide +kernel
  unfold addView
  dsimp only
  split
  · next hab =>
    subst hab
    have hsum : signed a m + signed a n = signed a (m + n) := by
      unfold signed
      split <;> push_cast <;> ring
    rw [hsum]
    by_cases hmn : m + n = 0
    · rw [hmn, hzeros]
      cases a <;> exact congrArg some hzero.symm
    · exact place_round a _ fun _ => hmn
  · next hab =>
    have hb : b = !a := by
      cases a <;> cases b <;> simp_all
    subst hb
    split
    · next hmn =>
      subst hmn
      have hsum : signed a m + signed (!a) m = 0 := by
        cases a <;> simp [signed]
      rw [hsum, hzero]
      decide +kernel
    · next hne =>
      split
      · next hlt =>
        have hsum : signed a m + signed (!a) n = signed a (m - n) := by
          cases a <;> simp [signed] <;> omega
        rw [hsum]
        exact place_round a _ fun _ => by omega
      · next hle =>
        have hsum : signed a m + signed (!a) n = signed (!a) (n - m) := by
          cases a <;> simp [signed] <;> omega
        rw [hsum]
        exact place_round _ _ fun _ => by omega

theorem lt_of_view_eq {a : Bool} (h : x.view = .fin a m) : m < far := by
  have hexp : x.magBits / 2 ^ 52 < 2048 := by
    have := x.magBits_lt
    omega
  have hfinite : x.magBits / 2 ^ 52 ≠ 2047 := by
    intro hne
    rw [view, viewOf, if_pos hne] at h
    split at h <;> cases h
  rw [view, viewOf_eq _ hfinite] at h
  cases h
  calc magnitude x.magBits ≤ 2 ^ 52 * 2 ^ (x.magBits / 2 ^ 52) := magnitude_le (by omega)
    _ = 2 ^ (52 + x.magBits / 2 ^ 52) := (Nat.pow_add ..).symm
    _ < far := two_pow_lt_far (by omega)

/-- **Taking off the same finite float keeps the order.** -/
theorem sub_le_sub {w : F64} (h : x.le y = true) (hw : w.isFinite = true) :
    (x.sub w).le (y.sub w) = true := by
  obtain ⟨b, n, hn⟩ : ∃ b n, w.neg.view = .fin b n := by
    rw [view_neg]
    unfold isFinite at hw
    split at hw
    · next b n hview => exact ⟨!b, n, by rw [hview]⟩
    · cases hw
  have hinf : ∀ neg, (inf neg).place = some (signed neg far) := by
    decide +kernel
  obtain ⟨p, hp, q, hq, hpq⟩ := le_iff.mp h
  unfold place at hp hq
  unfold sub add
  rw [hn, le_iff]
  cases hx : x.view with
  | nan => simp [hx] at hp
  | inf a =>
    cases hy : y.view with
    | nan => simp [hy] at hq
    | inf a' =>
      simp only [hx, hy, Option.mem_some_iff] at hp hq
      exact ⟨_, hinf a, _, hinf a', by rwa [hp, hq]⟩
    | fin a' m' =>
      have hm' := lt_of_view_eq hy
      have hbounds := rounded_bounds (signed a' m' + signed b n)
      simp only [hx, hy, Option.mem_some_iff] at hp hq
      refine ⟨_, hinf a, _, place_addView a' b m' n, ?_⟩
      cases a with
      | true => exact hbounds.1
      | false =>
        have hle := (signed_bounds a' m').2
        rw [signed_false] at hp
        omega
  | fin a m =>
    cases hy : y.view with
    | nan => simp [hy] at hq
    | inf a' =>
      have hm := lt_of_view_eq hx
      have hbounds := rounded_bounds (signed a m + signed b n)
      simp only [hx, hy, Option.mem_some_iff] at hp hq
      refine ⟨_, place_addView a b m n, _, hinf a', ?_⟩
      cases a' with
      | false => exact hbounds.2
      | true =>
        have hle := (signed_bounds a m).1
        rw [signed_true] at hq
        omega
    | fin a' m' =>
      refine ⟨_, place_addView a b m n, _, place_addView a' b m' n, rounded_mono ?_⟩
      simp only [hx, hy, Option.mem_some_iff] at hp hq
      subst hp hq
      exact Int.add_le_add_right hpq _

end F64
