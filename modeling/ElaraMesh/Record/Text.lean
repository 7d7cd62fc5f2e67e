import ElaraMesh.Lib.Framing
import Mathlib.Data.List.DropRight
import Mathlib.Data.List.Lex
import Mathlib.Order.Basic

/-!
# Strings

A string of the program is a byte string that is valid UTF-8.  Validity is checked
where bytes become a string, and the strings carry it from there on.

## Main results

* `utf8Error_eq_none_iff` — valid bytes are characters one after the other.
-/

namespace ElaraMesh
namespace Record

/-- Why bytes are not UTF-8: the index up to which they are, and the length of the
wrong sequence, if the input does not just end in it. -/
structure Utf8Error where
  validUpTo : ℕ
  errorLen : Option ℕ
  deriving DecidableEq

def Utf8Error.message (e : Utf8Error) : String :=
  let validUpTo := e.validUpTo
  match e.errorLen with
  | some errorLen => s!"invalid utf-8 sequence of {errorLen} bytes from index {validUpTo}"
  | none => s!"incomplete utf-8 byte sequence from index {validUpTo}"

/-- The length of a character by its first byte, `0` for a byte that starts none. -/
def utf8CharWidth (b : UInt8) : ℕ :=
  if b < 0x80 then 1
  else if 0xc2 ≤ b ∧ b ≤ 0xdf then 2
  else if 0xe0 ≤ b ∧ b ≤ 0xef then 3
  else if 0xf0 ≤ b ∧ b ≤ 0xf4 then 4
  else 0

/-- A byte inside of a character. -/
def isContinuation (b : UInt8) : Bool := 0x80 ≤ b ∧ b ≤ 0xbf

/-- May the second byte follow the first one, in a character of three or four? -/
def secondByteOk (first second : UInt8) : Bool :=
  if first = 0xe0 then 0xa0 ≤ second ∧ second ≤ 0xbf
  else if first = 0xed then 0x80 ≤ second ∧ second ≤ 0x9f
  else if first = 0xf0 then 0x90 ≤ second ∧ second ≤ 0xbf
  else if first = 0xf4 then 0x80 ≤ second ∧ second ≤ 0x8f
  else isContinuation second

/-- The first error in the bytes from `index` on. -/
def utf8Error (index : ℕ) : List UInt8 → Option Utf8Error
  | [] => none
  | b :: rest =>
    match utf8CharWidth b with
    | 1 => utf8Error (index + 1) rest
    | 2 =>
      match rest with
      | [] => some ⟨index, none⟩
      | c :: rest =>
        if isContinuation c then utf8Error (index + 2) rest else some ⟨index, some 1⟩
    | 3 =>
      match rest with
      | [] => some ⟨index, none⟩
      | c :: rest =>
        if ¬ secondByteOk b c then some ⟨index, some 1⟩
        else match rest with
          | [] => some ⟨index, none⟩
          | d :: rest =>
            if isContinuation d then utf8Error (index + 3) rest else some ⟨index, some 2⟩
    | 4 =>
      match rest with
      | [] => some ⟨index, none⟩
      | c :: rest =>
        if ¬ secondByteOk b c then some ⟨index, some 1⟩
        else match rest with
          | [] => some ⟨index, none⟩
          | d :: rest =>
            if ¬ isContinuation d then some ⟨index, some 2⟩
            else match rest with
              | [] => some ⟨index, none⟩
              | e :: rest =>
                if isContinuation e then utf8Error (index + 4) rest else some ⟨index, some 3⟩
    | _ => some ⟨index, some 1⟩

def IsChar : List UInt8 → Prop
  | [b] => utf8CharWidth b = 1
  | [b, c] => utf8CharWidth b = 2 ∧ isContinuation c = true
  | [b, c, d] => utf8CharWidth b = 3 ∧ secondByteOk b c = true ∧ isContinuation d = true
  | [b, c, d, e] => utf8CharWidth b = 4 ∧ secondByteOk b c = true ∧ isContinuation d = true ∧
      isContinuation e = true
  | _ => False

variable {c l : List UInt8} {index : ℕ} {b : UInt8}

theorem utf8Error_char_append {rest : List UInt8} (hc : IsChar c) (index : ℕ) :
    utf8Error index (c ++ rest) = utf8Error (index + c.length) rest := by
  match c, hc with
  | [b], (hb : utf8CharWidth b = 1) => rw [utf8Error.eq_def]; simp [hb]
  | [b, c], ⟨hb, hc⟩ => rw [utf8Error.eq_def]; simp [hb, hc]
  | [b, c, d], ⟨hb, hc, hd⟩ => rw [utf8Error.eq_def]; simp [hb, hc, hd]
  | [b, c, d, e], ⟨hb, hc, hd, he⟩ => rw [utf8Error.eq_def]; simp [hb, hc, hd, he]

theorem ite_eq_none {α : Type} {c : Prop} [Decidable c] {x : Option α} {a : α}
    (h : (if c then x else some a) = none) : c ∧ x = none := by
  split at h
  · next hc => exact ⟨hc, h⟩
  · cases h

theorem ite_eq_none' {α : Type} {c : Prop} [Decidable c] {x : Option α} {a : α}
    (h : (if c then some a else x) = none) : ¬ c ∧ x = none := by
  split at h
  · cases h
  · next hc => exact ⟨hc, h⟩

theorem exists_char_of_valid
    (h : utf8Error index (b :: l) = none) : ∃ c rest, IsChar (b :: c) ∧ l = c ++ rest := by
  rw [utf8Error.eq_def] at h
  dsimp only at h
  split at h
  · next hb => exact ⟨[], l, hb, rfl⟩
  · next hb =>
    rcases l with _ | ⟨c, rest⟩
    · cases h
    · obtain ⟨hc, -⟩ := ite_eq_none h
      exact ⟨[c], rest, ⟨hb, hc⟩, rfl⟩
  · next hb =>
    rcases l with _ | ⟨c, _ | ⟨d, rest⟩⟩
    · cases h
    · exact nomatch (ite_eq_none' h).2
    · obtain ⟨hc, h⟩ := ite_eq_none' h
      obtain ⟨hd, -⟩ := ite_eq_none h
      exact ⟨[c, d], rest, ⟨hb, not_not.mp hc, hd⟩, rfl⟩
  · next hb =>
    rcases l with _ | ⟨c, _ | ⟨d, _ | ⟨e, rest⟩⟩⟩
    · cases h
    · exact nomatch (ite_eq_none' h).2
    · exact nomatch (ite_eq_none' (ite_eq_none' h).2).2
    · obtain ⟨hc, h⟩ := ite_eq_none' h
      obtain ⟨hd, h⟩ := ite_eq_none' h
      obtain ⟨he, -⟩ := ite_eq_none h
      exact ⟨[c, d, e], rest, ⟨hb, not_not.mp hc, not_not.mp hd, he⟩, rfl⟩
  · cases h

/-- **Valid bytes are characters one after the other.** -/
theorem utf8Error_eq_none_iff :
    utf8Error index l = none ↔ ∃ cs : List (List UInt8), (∀ c ∈ cs, IsChar c) ∧ cs.flatten = l := by
  constructor
  · intro h
    induction hn : l.length using Nat.strong_induction_on generalizing index l with
    | _ n ih =>
      cases l with
      | nil => exact ⟨[], by simp, rfl⟩
      | cons b l =>
        obtain ⟨c, rest, hc, rfl⟩ := exists_char_of_valid h
        rw [← List.cons_append, utf8Error_char_append hc] at h
        have hlt : rest.length < n := by
          rw [← hn, List.length_cons, List.length_append]
          omega
        obtain ⟨cs, hcs, rfl⟩ := ih _ hlt h rfl
        exact ⟨(b :: c) :: cs, List.forall_mem_cons.mpr ⟨hc, hcs⟩, rfl⟩
  · rintro ⟨cs, hcs, rfl⟩
    induction cs generalizing index with
    | nil => rfl
    | cons c cs ih =>
      obtain ⟨hc, hcs⟩ := List.forall_mem_cons.mp hcs
      rw [List.flatten_cons, utf8Error_char_append hc, ih hcs]

theorem high_of_width (hb : utf8CharWidth b ≠ 1) : 0x80 ≤ b :=
  UInt8.not_lt.mp fun hlt => hb (if_pos hlt)

theorem high_of_isContinuation (hb : isContinuation b = true) : 0x80 ≤ b :=
  (of_decide_eq_true hb).1

theorem high_of_secondByteOk {c : UInt8} (h : secondByteOk b c = true) : 0x80 ≤ c := by
  unfold secondByteOk at h
  split_ifs at h
  · exact UInt8.le_trans (by decide) (of_decide_eq_true h).1
  · exact (of_decide_eq_true h).1
  · exact UInt8.le_trans (by decide) (of_decide_eq_true h).1
  · exact (of_decide_eq_true h).1
  · exact high_of_isContinuation h

/-- A character is an ASCII byte, or has none. -/
theorem IsChar.ascii_or_high (hc : IsChar c) :
    (∃ b < 0x80, c = [b]) ∨ ∀ b ∈ c, 0x80 ≤ b := by
  match c, hc with
  | [b], (hb : utf8CharWidth b = 1) =>
    by_cases hlt : b < 0x80
    · exact Or.inl ⟨b, hlt, rfl⟩
    · rw [utf8CharWidth, if_neg hlt] at hb
      split_ifs at hb <;> omega
  | [b, c], ⟨hb, hc⟩ =>
    have hb : 0x80 ≤ b := high_of_width (by omega)
    simp [hb, high_of_isContinuation hc]
  | [b, c, d], ⟨hb, hc, hd⟩ =>
    have hb : 0x80 ≤ b := high_of_width (by omega)
    simp [hb, high_of_secondByteOk hc, high_of_isContinuation hd]
  | [b, c, d, e], ⟨hb, hc, hd, he⟩ =>
    have hb : 0x80 ≤ b := high_of_width (by omega)
    simp [hb, high_of_secondByteOk hc, high_of_isContinuation hd, high_of_isContinuation he]

/-- The last byte of a character is an ASCII one only if it is the whole character. -/
theorem IsChar.eq_of_ascii (hc : IsChar (c ++ [b])) (hb : b < 0x80) :
    c = [] := by
  rcases hc.ascii_or_high with ⟨b', -, heq⟩ | hhigh
  · exact (List.append_eq_singleton_iff.mp heq).resolve_right (by simp) |>.1
  · exact absurd hb (UInt8.not_lt.mpr (hhigh b (by simp)))

/-- ASCII at the end of valid bytes can be dropped. -/
theorem valid_of_append_ascii (hb : b < 0x80)
    (h : utf8Error index (l ++ [b]) = none) : utf8Error index l = none := by
  obtain ⟨cs, hcs, hflatten⟩ := utf8Error_eq_none_iff.mp h
  rcases List.eq_nil_or_concat cs with rfl | ⟨cs, c, rfl⟩
  · exact absurd hflatten (by simp)
  rw [List.concat_eq_append] at hcs hflatten
  obtain ⟨hinit, hlast⟩ := List.forall_mem_append.mp hcs
  have hc := hlast c List.mem_cons_self
  rcases List.eq_nil_or_concat c with rfl | ⟨c, b', rfl⟩
  · exact hc.elim
  -- the last character ends in the last byte, so it is that byte
  rw [List.flatten_append, List.flatten_singleton, List.concat_eq_append, ← List.append_assoc]
    at hflatten
  obtain ⟨rfl, hb'⟩ := List.append_inj' hflatten rfl
  rw [List.concat_eq_append, List.singleton_inj.mp hb'] at hc
  rw [hc.eq_of_ascii hb, List.append_nil]
  exact utf8Error_eq_none_iff.mpr ⟨cs, hinit, rfl⟩

/-- ASCII at the start of valid bytes can be dropped. -/
theorem valid_of_ascii_cons (hb : b < 0x80)
    (h : utf8Error index (b :: l) = none) : utf8Error index l = none := by
  have hchar : IsChar [b] := if_pos hb
  have hrest := (utf8Error_char_append hchar index).symm.trans h
  exact utf8Error_eq_none_iff.mpr (utf8Error_eq_none_iff.mp hrest)

theorem valid_rdropWhile {p : UInt8 → Bool} (hp : ∀ b, p b = true → b < 0x80)
    (h : utf8Error index l = none) : utf8Error index (l.rdropWhile p) = none := by
  induction l using List.reverseRecOn with
  | nil => exact h
  | append_singleton l b ih =>
    rw [List.rdropWhile_concat]
    split
    · next hb => exact ih (valid_of_append_ascii (hp b hb) h)
    · exact h

theorem valid_dropWhile {p : UInt8 → Bool} (hp : ∀ b, p b = true → b < 0x80)
    (h : utf8Error index l = none) : utf8Error index (l.dropWhile p) = none := by
  induction l with
  | nil => exact h
  | cons b l ih =>
    rw [List.dropWhile_cons]
    split
    · next hb => exact ih (valid_of_ascii_cons (hp b hb) h)
    · exact h

/-- A map of ASCII to ASCII that leaves all other bytes as they are keeps bytes valid. -/
theorem valid_map {f : UInt8 → UInt8} (hascii : ∀ b < 0x80, f b < 0x80)
    (hother : ∀ b, 0x80 ≤ b → f b = b)
    (h : utf8Error index l = none) : utf8Error index (l.map f) = none := by
  obtain ⟨cs, hcs, rfl⟩ := utf8Error_eq_none_iff.mp h
  rw [List.map_flatten, utf8Error_eq_none_iff]
  refine ⟨cs.map (List.map f), fun c hc => ?_, rfl⟩
  obtain ⟨c, hmem, rfl⟩ := List.mem_map.mp hc
  rcases (hcs c hmem).ascii_or_high with ⟨b, hb, rfl⟩ | hhigh
  · exact if_pos (hascii b hb)
  · rw [List.map_congr_left fun b hb => hother b (hhigh b hb), List.map_id']
    exact hcs c hmem

/-- A string: bytes that are valid UTF-8. -/
@[ext] structure Str where
  bytes : List UInt8
  valid : utf8Error 0 bytes = none
  deriving DecidableEq

namespace Str

def fromUtf8 (l : List UInt8) : Except Utf8Error Str :=
  match h : utf8Error 0 l with
  | none => .ok ⟨l, h⟩
  | some e => .error e

def empty : Str := ⟨[], rfl⟩

def text (s : String) : Str := (fromUtf8 s.toByteArray.data.toList).toOption.getD empty

def append (s t : Str) : Str where
  bytes := s.bytes ++ t.bytes
  valid := by
    obtain ⟨cs, hcs, hs⟩ := utf8Error_eq_none_iff.mp s.valid
    obtain ⟨ds, hds, ht⟩ := utf8Error_eq_none_iff.mp t.valid
    refine utf8Error_eq_none_iff.mpr ⟨cs ++ ds, ?_, by rw [List.flatten_append, hs, ht]⟩
    exact List.forall_mem_append.mpr ⟨hcs, hds⟩

def len (s : Str) : ℕ := s.bytes.length

def isAscii (s : Str) : Bool := s.bytes.all (· < 0x80)

theorem bytes_injective : Function.Injective bytes := fun _ _ h => Str.ext h

/-- Strings are ordered by their bytes. -/
instance : LinearOrder Str :=
  LinearOrder.lift' (fun s => s.bytes.map UInt8.toNat) fun _ _ h =>
    bytes_injective (List.map_injective_iff.mpr (fun _ _ => UInt8.toNat_inj.mp) h)

theorem bytes_fromUtf8 {l : List UInt8} {s : Str} (h : fromUtf8 l = .ok s) : s.bytes = l := by
  unfold fromUtf8 at h
  split at h
  · cases h
    rfl
  · cases h

end Str

example : (Str.fromUtf8 [0xc3, 0xa9, 0x21]).isOk = true := by decide

example : utf8Error 0 [0x61, 0xed, 0xa0, 0x80] = some ⟨1, some 1⟩ := by decide

end Record
end ElaraMesh
