import ElaraMesh.Itc.Stamp
import ElaraMesh.Lib.Varint

/-!
# Stamps on the wire

A stamp is written as its identity tree followed by its event tree, both in prefix order: a
tag for each node and leaf, and after the tag of an event its counter.  The reader takes a
tree of fewer than `maxItcDepth` levels and refuses what is left over, but it takes every
spelling of a counter.

## Main results

* `fromBytes_bijective_iff` — every stamp is read back, and **bytes that are accepted are
  those that are written if and only if all their counters are minimal.**
-/

namespace ElaraMesh
namespace Itc

/-- The number of levels that the reader accepts. -/
def maxItcDepth : ℕ := 1024

/-- Why bytes are not a stamp. -/
inductive WireError where
  | varint (e : Varint.ReadError)
  | idDepth
  | idEof
  | idTag (tag : UInt8)
  | eventDepth
  | eventEof
  | eventTag (tag : UInt8)
  | trailing (count : ℕ)
  deriving DecidableEq, Repr

def encodeId : Id → List UInt8
  | .leaf false => [0]
  | .leaf true => [1]
  | .node l r => 2 :: (encodeId l ++ encodeId r)

/-- Read an identity with a number of levels left. -/
def decodeId : ℕ → List UInt8 → Except WireError (Id × List UInt8)
  | 0, _ => .error .idDepth
  | _ + 1, [] => .error .idEof
  | levels + 1, tag :: data =>
    if tag = 0 then .ok (.leaf false, data)
    else if tag = 1 then .ok (.leaf true, data)
    else if tag = 2 then do
      let (l, data) ← decodeId levels data
      let (r, data) ← decodeId levels data
      return (.node l r, data)
    else .error (.idTag tag)

def encodeEvent : Event → List UInt8
  | .leaf n => 0 :: Varint.encode n
  | .node n l r => 1 :: (Varint.encode n ++ (encodeEvent l ++ encodeEvent r))

def decodeCounter (data : List UInt8) : Except WireError (ℕ × List UInt8) :=
  (Varint.decode data).mapError .varint

/-- Read an event with a number of levels left. -/
def decodeEvent : ℕ → List UInt8 → Except WireError (Event × List UInt8)
  | 0, _ => .error .eventDepth
  | _ + 1, [] => .error .eventEof
  | levels + 1, tag :: data =>
    if tag = 0 then do
      let (n, data) ← decodeCounter data
      return (.leaf n, data)
    else if tag = 1 then do
      let (n, data) ← decodeCounter data
      let (l, data) ← decodeEvent levels data
      let (r, data) ← decodeEvent levels data
      return (.node n l r, data)
    else .error (.eventTag tag)

namespace Stamp

def toBytes (s : Stamp) : List UInt8 := encodeId s.id ++ encodeEvent s.event

def fromBytes (data : List UInt8) : Except WireError Stamp := do
  let (id, data) ← decodeId maxItcDepth data
  let (event, data) ← decodeEvent maxItcDepth data
  if data.length ≠ 0 then .error (.trailing data.length)
  return ⟨id, event⟩

end Stamp

/-! ### What was written is read back -/

def Id.height : Id → ℕ
  | .leaf _ => 0
  | .node l r => max l.height r.height + 1

def Event.height : Event → ℕ
  | .leaf _ => 0
  | .node _ l r => max l.height r.height + 1

/-- Every counter of the tree is a `u64`. -/
def Event.Fits : Event → Prop
  | .leaf n => n ≤ U64.max
  | .node n l r => n ≤ U64.max ∧ l.Fits ∧ r.Fits

variable {levels : ℕ} {data rest : List UInt8}

theorem decodeId_encodeId (id : Id) (h : id.height < levels) (rest : List UInt8) :
    decodeId levels (encodeId id ++ rest) = .ok (id, rest) := by
  induction id generalizing levels rest with
  | leaf owned =>
    obtain ⟨levels, rfl⟩ := Nat.exists_eq_add_of_lt h
    cases owned <;> rfl
  | node l r hl hr =>
    simp only [Id.height] at h
    obtain ⟨levels, rfl⟩ := Nat.exists_eq_add_one_of_ne_zero (by omega : levels ≠ 0)
    simp [encodeId, decodeId, hl (by omega : l.height < levels), hr (by omega : r.height < levels),
      bind, Except.bind, pure, Except.pure]

theorem decodeCounter_encode {n : ℕ} (hn : n ≤ U64.max) (rest : List UInt8) :
    decodeCounter (Varint.encode n ++ rest) = .ok (n, rest) := by
  rw [decodeCounter, Varint.decode_encode hn]
  rfl

theorem decodeEvent_encodeEvent (e : Event) (h : e.height < levels) (hfits : e.Fits)
    (rest : List UInt8) : decodeEvent levels (encodeEvent e ++ rest) = .ok (e, rest) := by
  induction e generalizing levels rest with
  | leaf n =>
    obtain ⟨levels, rfl⟩ := Nat.exists_eq_add_of_lt h
    simp [encodeEvent, decodeEvent, decodeCounter_encode hfits, bind, Except.bind, pure,
      Except.pure]
  | node n l r hl hr =>
    simp only [Event.height] at h
    obtain ⟨levels, rfl⟩ := Nat.exists_eq_add_one_of_ne_zero (by omega : levels ≠ 0)
    obtain ⟨hn, hfitsl, hfitsr⟩ := hfits
    simp [encodeEvent, decodeEvent, decodeCounter_encode hn,
      hl (by omega : l.height < levels) hfitsl, hr (by omega : r.height < levels) hfitsr,
      bind, Except.bind, pure, Except.pure]

/-! ### What was read -/

theorem decodeId_ok {id : Id}
    (h : decodeId levels data = .ok (id, rest)) : data = encodeId id ++ rest := by
  induction levels generalizing data rest id with
  | zero => cases h
  | succ levels ih =>
    cases data with
    | nil => cases h
    | cons tag data =>
      simp only [decodeId, bind, Except.bind, pure, Except.pure] at h
      split_ifs at h with h0 h1 h2
      · cases h; rw [h0]; rfl
      · cases h; rw [h1]; rfl
      · split at h
        · cases h
        next l hl =>
          split at h
          · cases h
          next r hr =>
            cases h
            rw [h2, ih hl, ih hr, encodeId, List.cons_append, List.append_assoc]

/-- The bytes of an event tree that are read as counters: all that stand between two tags. -/
def eventCounters : List UInt8 → List (List UInt8)
  | [] => []
  | _ :: data => Varint.span data :: eventCounters (data.drop (Varint.span data).length)
termination_by data => data.length
decreasing_by
  simp only [List.length_drop, List.length_cons]
  omega

def counterBytes (x : List UInt8) : List (List UInt8) :=
  match decodeId maxItcDepth x with
  | .ok (_, data) => eventCounters data
  | .error _ => []

theorem eventCounters_cons {bytes : List UInt8} (tag : UInt8)
    (hdata : data = bytes ++ rest) (hspan : Varint.span data = bytes) :
    eventCounters (tag :: data) = bytes :: eventCounters rest := by
  rw [eventCounters, hspan, hdata, List.drop_left]

theorem decodeCounter_ok {n : ℕ} (h : decodeCounter data = .ok (n, rest)) :
    n ≤ U64.max ∧ ∃ bytes, data = bytes ++ rest ∧ Varint.span data = bytes ∧
      (Varint.encode n = bytes ↔ Varint.Minimal bytes) := by
  refine Varint.encode_iff_of_decode ?_
  unfold decodeCounter at h
  cases hd : Varint.decode data with
  | error e => rw [hd] at h; cases h
  | ok p => rw [hd] at h; cases h; rfl

/-- The counters of an event that was written are minimal. -/
theorem eventCounters_encodeEvent {e : Event} (h : e.Fits) (rest : List UInt8) :
    ∃ cs, eventCounters (encodeEvent e ++ rest) = cs ++ eventCounters rest ∧
      ∀ c ∈ cs, Varint.Minimal c := by
  have hspan := fun n rest => (Varint.spelling_encode n).span_append rest
  induction e generalizing rest with
  | leaf n =>
    exact ⟨[Varint.encode n], eventCounters_cons _ rfl (hspan _ _),
      by simpa using Varint.minimal_encode h⟩
  | node n l r hl hr =>
    obtain ⟨hn, hfitsl, hfitsr⟩ := h
    obtain ⟨csr, hcsr, hminr⟩ := hr hfitsr rest
    obtain ⟨csl, hcsl, hminl⟩ := hl hfitsl (encodeEvent r ++ rest)
    refine ⟨Varint.encode n :: (csl ++ csr), ?_, ?_⟩
    · rw [encodeEvent, List.cons_append, eventCounters_cons _ (List.append_assoc ..) ?_,
        List.append_assoc, hcsl, hcsr, List.cons_append, List.append_assoc]
      rw [List.append_assoc]
      exact hspan _ _
    · simpa [or_imp, forall_and] using ⟨Varint.minimal_encode hn, hminl, hminr⟩

theorem decodeEvent_ok {e : Event} (h : decodeEvent levels data = .ok (e, rest)) :
    e.Fits ∧ ∃ cs, eventCounters data = cs ++ eventCounters rest ∧
      ((∀ c ∈ cs, Varint.Minimal c) → data = encodeEvent e ++ rest) := by
  induction levels generalizing data rest e with
  | zero => cases h
  | succ levels ih =>
    cases data with
    | nil => cases h
    | cons tag data =>
      simp only [decodeEvent, bind, Except.bind, pure, Except.pure] at h
      split_ifs at h with h0 h1
      · split at h
        · cases h
        next p hn =>
          cases h
          obtain ⟨hle, bytes, hdata, hspan, hiff⟩ := decodeCounter_ok hn
          refine ⟨hle, [bytes], eventCounters_cons tag hdata hspan, fun hmin => ?_⟩
          rw [hdata, h0, ← hiff.mpr (hmin bytes (by simp))]
          rfl
      · split at h
        · cases h
        next p hn =>
          split at h
          · cases h
          next l hl =>
            split at h
            · cases h
            next r hr =>
              cases h
              obtain ⟨hle, bytes, hdata, hspan, hiff⟩ := decodeCounter_ok hn
              obtain ⟨hfitsl, csl, hcsl, hminl⟩ := ih hl
              obtain ⟨hfitsr, csr, hcsr, hminr⟩ := ih hr
              refine ⟨⟨hle, hfitsl, hfitsr⟩, bytes :: (csl ++ csr), ?_, fun hmin => ?_⟩
              · rw [eventCounters_cons tag hdata hspan, hcsl, hcsr, List.cons_append,
                  List.append_assoc]
              · simp only [List.mem_cons, List.mem_append, or_imp, forall_and] at hmin
                rw [hdata, h1, hminl hmin.2.1, hminr hmin.2.2, ← hiff.mpr (hmin.1 bytes rfl),
                  encodeEvent]
                simp

theorem Stamp.fromBytes_ok {x : List UInt8} {s : Stamp} (h : Stamp.fromBytes x = .ok s) :
    ∃ data, decodeId maxItcDepth x = .ok (s.id, data) ∧
      decodeEvent maxItcDepth data = .ok (s.event, []) := by
  simp only [fromBytes, bind, Except.bind, pure, Except.pure] at h
  split at h
  · cases h
  next p hid =>
    split at h
    · cases h
    next q hevent =>
      split at h
      · cases h
      next hlen =>
        cases h
        rw [not_not, List.length_eq_zero_iff] at hlen
        exact ⟨p.2, hid, hevent.trans (by rw [← hlen])⟩

/-- **The codec.**  A stamp of fewer than `maxItcDepth` levels is read back from the bytes it
is written as.  Bytes that are accepted are the ones that are written if and only if every
counter in them is spelled minimally. -/
theorem fromBytes_bijective_iff (s : Stamp) (x : List UInt8) :
    (s.id.height < maxItcDepth → s.event.height < maxItcDepth → s.event.Fits →
      Stamp.fromBytes s.toBytes = .ok s) ∧
    (Stamp.fromBytes x = .ok s →
      (s.toBytes = x ↔ ∀ c ∈ counterBytes x, Varint.Minimal c)) := by
  refine ⟨fun hid hevent hfits => ?_, fun h => ?_⟩
  · have hread := decodeEvent_encodeEvent s.event hevent hfits []
    rw [List.append_nil] at hread
    simp [Stamp.fromBytes, Stamp.toBytes, decodeId_encodeId s.id hid, hread, bind, Except.bind,
      pure, Except.pure]
  · obtain ⟨data, hid, hevent⟩ := Stamp.fromBytes_ok h
    obtain ⟨hfits, cs, hcs, hmin⟩ := decodeEvent_ok hevent
    have hx := decodeId_ok hid
    have hcounters : counterBytes x = cs := by
      rw [counterBytes, hid]
      simpa [eventCounters] using hcs
    rw [hcounters]
    constructor
    · intro heq c hc
      -- the counters of what was written are those of what was read
      have hdata : encodeEvent s.event = data := List.append_cancel_left (heq.trans hx)
      obtain ⟨cs', hcs', hmin'⟩ := eventCounters_encodeEvent hfits []
      rw [List.append_nil, hdata, hcs] at hcs'
      rw [List.append_cancel_right hcs'] at hc
      exact hmin' c hc
    · intro hall
      rw [hx, hmin hall, List.append_nil]
      rfl

/-- The counter zero with an unused group after it is read as zero. -/
theorem fromBytes_padded :
    Stamp.fromBytes [1, 0, 0x80, 0] = .ok Stamp.seed ∧
      Stamp.fromBytes [1, 0, 0] = .ok Stamp.seed ∧
      Stamp.seed.toBytes ≠ [1, 0, 0x80, 0] := by
  refine ⟨rfl, rfl, ?_⟩
  simp [Stamp.toBytes, Stamp.seed, Id.seed, Event.zero, encodeId, encodeEvent, Varint.encode]

end Itc
end ElaraMesh
