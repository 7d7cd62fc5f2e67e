import Mathlib.Data.Finset.Card
import Mathlib.Data.List.Nodup

/-!
# Bounded sets that forget in order of insertion

A list without duplicates, the oldest entry in front.  An entry that is there already stays
where it is; a new one comes last, and if there are as many as the bound allows, the first one
is dropped for it.

## Main definitions

* `push` — one entry; `pushAll` — one after the other.
-/

namespace Fifo

variable {α : Type} {bound : ℕ} {order l : List α} {a b : α}

/-- Drop the first entry if there is no room for another one. -/
def makeRoom (bound : ℕ) (order : List α) : List α :=
  if bound ≤ order.length then order.tail else order

theorem makeRoom_suffix (bound : ℕ) (order : List α) : makeRoom bound order <:+ order := by
  unfold makeRoom
  split
  · exact List.tail_suffix order
  · exact List.suffix_refl order

variable [DecidableEq α]

def push (bound : ℕ) (order : List α) (a : α) : List α :=
  if a ∈ order then order else makeRoom bound order ++ [a]

def pushAll (bound : ℕ) (order l : List α) : List α := l.foldl (push bound) order

theorem mem_of_mem_push (h : b ∈ push bound order a) : b ∈ order ∨ b = a := by
  unfold push at h
  split at h
  · exact Or.inl h
  · exact (List.mem_append.mp h).imp (fun h => (makeRoom_suffix bound order).subset h)
      List.mem_singleton.mp

theorem mem_of_mem_pushAll (h : b ∈ pushAll bound order l) : b ∈ order ∨ b ∈ l := by
  induction l generalizing order with
  | nil => exact Or.inl h
  | cons a l ih =>
    rcases ih h with hpush | hmem
    · refine (mem_of_mem_push hpush).imp_right fun heq => ?_
      rw [heq]
      exact List.mem_cons_self
    · exact Or.inr (List.mem_cons_of_mem _ hmem)

theorem pushAll_concat (bound : ℕ) (order l : List α) (a : α) :
    pushAll bound order (l ++ [a]) = push bound (pushAll bound order l) a :=
  List.foldl_concat ..

end Fifo
