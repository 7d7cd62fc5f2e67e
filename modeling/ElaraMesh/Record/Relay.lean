import ElaraMesh.Record.Identity
import ElaraMesh.Record.Received

/-!
# Records that are relayed

A node decodes a record and sends it on.  What was decoded is written and read again without a
change, with one exception: the path of the zone is normalized when it is read, by steps that
are taken once each.  What is left may be normalized further by the next node, and if case
folding made the path too long, its length is cut.

## Main results

* `ValidationRecord.decoded_of_fromBytes` — every decoded record can be written again.
* `ValidationRecord.relay_iff` — a decoded record is relayed unchanged through any number of
  nodes, if and only if its zone path fits and is normalized.
* `zone_renormalized` — a record where it is not.
-/

namespace ElaraMesh
namespace Record

open Framing

/-! ### Maps that are filled -/

variable {m : List (Str × Value)} {items : List Value}

theorem increasing_mapInsert {k : Str} {v : Value} (hm : Increasing m) :
    Increasing (mapInsert k v m) := by
  induction m with
  | nil => exact List.pairwise_singleton _ _
  | cons e m ih =>
    obtain ⟨k', v'⟩ := e
    obtain ⟨hhead, hm⟩ := List.pairwise_cons.mp hm
    unfold mapInsert
    split
    · next hlt =>
      refine List.pairwise_cons.mpr ⟨?_, List.pairwise_cons.mpr ⟨hhead, hm⟩⟩
      exact List.forall_mem_cons.mpr ⟨hlt, fun e he => lt_trans hlt (hhead e he)⟩
    · next hge =>
      split
      · next heq => exact List.pairwise_cons.mpr ⟨fun e he => heq ▸ hhead e he, hm⟩
      · next hne =>
        refine List.pairwise_cons.mpr ⟨fun e he => ?_, ih hm⟩
        rcases mem_mapInsert he with rfl | he
        · exact lt_of_le_of_ne (not_lt.mp hge) (Ne.symm hne)
        · exact hhead e he

theorem length_mapInsert_le {k : Str} {v : Value} :
    (mapInsert k v m).length ≤ m.length + 1 := by
  induction m with
  | nil => exact le_rfl
  | cons e m ih =>
    obtain ⟨k', v'⟩ := e
    unfold mapInsert
    split
    · exact le_rfl
    · split
      · exact Nat.le_succ _
      · exact Nat.succ_le_succ ih

/-- A map as it is filled by the decoder. -/
structure Entries (P : Value → Prop) (n : ℕ) (m : List (Str × Value)) : Prop where
  increasing : Increasing m
  entry : ∀ e ∈ m, e.1.len ≤ 255 ∧ P e.2
  count : m.length ≤ n

theorem returns_readU8Prefixed : Returns readU8Prefixed fun l => l.length ≤ 255 :=
  (Returns.any _).bind fun len _ =>
    (Returns.readBytes _).mono fun _ hl => hl ▸ Nat.le_of_lt_succ len.toNat_lt

theorem returns_entries {keyName : String} {value : Read Value} {P : Value → Prop}
    (hvalue : Returns value P) : ∀ (n : ℕ) {k : ℕ} {map : List (Str × Value)}, Entries P k map →
    Returns (readEntries keyName value n map) (Entries P (k + n)) := by
  intro n
  induction n with
  | zero => intro k map hmap; exact Returns.pure hmap
  | succ n ih =>
    intro k map hmap
    refine returns_readU8Prefixed.bind fun bytes hbytes => ?_
    refine (returns_readStr _ _).bind fun key hkey => hvalue.bind fun v hv => ?_
    rw [show k + (n + 1) = k + 1 + n by omega]
    refine ih ⟨increasing_mapInsert hmap.increasing, fun e he => ?_,
      length_mapInsert_le.trans (Nat.succ_le_succ hmap.count)⟩
    rcases mem_mapInsert he with rfl | he
    · exact ⟨by rw [Str.len, hkey]; exact hbytes, hv⟩
    · exact hmap.entry e he

/-! ### Values that were decoded -/

/-- What the decoder returns, with `left` levels allowed: it can be written and read again
without a change. -/
structure Value.Returned (left : ℕ) (v : Value) : Prop where
  accepted : v.Accepted left
  sorted : v.Sorted
  encoded : ∃ bytes, encodeJsonValue v = .ok bytes
  i64 : v.allI64 = true

theorem overflowIf_of_not {c : Prop} [Decidable c] {message : String} (hc : ¬ c) :
    overflowIf c message = .ok () := if_neg hc

theorem encodeItems_of_returned (h : ∀ v ∈ items, ∃ bytes, encodeJsonValue v = .ok bytes) :
    ∃ body, encodeItems items = .ok body := by
  induction items with
  | nil => exact ⟨[], rfl⟩
  | cons v items ih =>
    obtain ⟨⟨first, hfirst⟩, hitems⟩ := List.forall_mem_cons.mp h
    obtain ⟨rest, hrest⟩ := ih hitems
    refine ⟨first ++ rest, ?_⟩
    rw [encodeItems, hfirst, hrest]
    rfl

theorem encodeFields_of_returned {fields : List (Str × Value)}
    (h : ∀ e ∈ fields, e.1.len ≤ 255 ∧ ∃ bytes, encodeJsonValue e.2 = .ok bytes) :
    ∃ body, encodeFields fields = .ok body := by
  induction fields with
  | nil => exact ⟨[], rfl⟩
  | cons e fields ih =>
    obtain ⟨k, v⟩ := e
    obtain ⟨⟨hkey, value, hvalue⟩, hfields⟩ := List.forall_mem_cons.mp h
    obtain ⟨rest, hrest⟩ := ih hfields
    refine ⟨sized 1 k.bytes ++ value ++ rest, ?_⟩
    rw [encodeFields, encodeMetadataKey, overflowIf_of_not (Nat.not_lt.mpr hkey), hvalue, hrest]
    rfl

theorem allI64Items_iff :
    Value.allI64Items items = true ↔ ∀ v ∈ items, v.allI64 = true := by
  induction items with
  | nil => simp [Value.allI64Items]
  | cons v items ih => simp [Value.allI64Items, ih]

theorem allI64Fields_iff {fields : List (Str × Value)} :
    Value.allI64Fields fields = true ↔ ∀ e ∈ fields, e.2.allI64 = true := by
  induction fields with
  | nil => simp [Value.allI64Fields]
  | cons e fields ih =>
    obtain ⟨k, v⟩ := e
    simp [Value.allI64Fields, ih]

theorem returned_int {n : ℕ} (hn : n < 256 ^ 8) (left : ℕ) :
    Value.Returned (left + 1) (.number (.int (toI64 n))) := by
  have hbounds : -2 ^ 63 ≤ toI64 n ∧ toI64 n < 2 ^ 63 := by
    unfold toI64
    split <;> omega
  have hi64 : (Value.number (.int (toI64 n))).allI64 = true := decide_eq_true hbounds
  refine ⟨?_, Value.Sorted.number _, ⟨_, rfl⟩, hi64⟩
  have hwired := (Value.number_wired_eq_self_iff (.int (toI64 n))).mpr hi64
  rw [Value.Accepted, hwired]
  rfl

theorem returned_array {left : ℕ} (hcount : items.length ≤ maxMetadataEntries)
    (hitems : ∀ v ∈ items, v.Returned left) : Value.Returned (left + 1) (.array items) := by
  refine ⟨⟨hcount, fun v hv => (hitems v hv).accepted⟩,
    Value.Sorted.array fun v hv => (hitems v hv).sorted, ?_,
    allI64Items_iff.mpr fun v hv => (hitems v hv).i64⟩
  obtain ⟨body, hbody⟩ := encodeItems_of_returned fun v hv => (hitems v hv).encoded
  refine ⟨5 :: (bigEndian 2 items.length ++ body), ?_⟩
  rw [encodeJsonValue, overflowIf_of_not (Nat.not_lt.mpr (hcount.trans (by decide))), hbody]
  rfl

theorem returned_object {left : ℕ} {fields : List (Str × Value)}
    (hfields : Entries (Value.Returned left) maxMetadataEntries fields) :
    Value.Returned (left + 1) (.object fields) := by
  refine ⟨⟨hfields.count, fun e he => (hfields.entry e he).2.accepted⟩,
    Value.Sorted.object hfields.increasing fun e he => (hfields.entry e he).2.sorted, ?_,
    allI64Fields_iff.mpr fun e he => (hfields.entry e he).2.i64⟩
  obtain ⟨body, hbody⟩ := encodeFields_of_returned fun e he =>
    ⟨(hfields.entry e he).1, (hfields.entry e he).2.encoded⟩
  refine ⟨6 :: (bigEndian 2 fields.length ++ body), ?_⟩
  rw [encodeJsonValue, overflowIf_of_not (Nat.not_lt.mpr (hfields.count.trans (by decide))), hbody]
  rfl

theorem entries_nil (P : Value → Prop) : Entries P 0 [] := ⟨List.Pairwise.nil, by simp, le_rfl⟩

theorem Entries.mono {P : Value → Prop} {n n' : ℕ} (h : Entries P n m)
    (hn : n ≤ n') : Entries P n' m := ⟨h.increasing, h.entry, h.count.trans hn⟩

/-- **Decoded values can be written and read again**, by induction on the levels left. -/
theorem returns_returned : ∀ left, Returns (decodeJsonValue left) (Value.Returned left) := by
  intro left
  induction left with
  | zero => exact Returns.wireError _
  | succ left ih =>
    unfold decodeJsonValue
    refine (Returns.any _).bind fun tag _ => ?_
    split
    · exact Returns.pure ⟨trivial, Value.Sorted.null, ⟨_, rfl⟩, rfl⟩
    · exact (Returns.any _).bind fun b _ =>
        Returns.pure ⟨trivial, Value.Sorted.bool _, ⟨_, rfl⟩, rfl⟩
    · refine (Returns.readBytes 8).bind fun bytes hbytes => Returns.pure (returned_int ?_ left)
      exact hbytes ▸ ofBigEndian_lt bytes
    · refine (Returns.any _).bind fun bits _ => Returns.guard fun hfinite => Returns.pure ?_
      exact ⟨not_not.mp hfinite, Value.Sorted.number _, ⟨_, rfl⟩, rfl⟩
    · refine returns_readU16Prefixed.bind fun bytes hbytes => ?_
      refine (returns_readStr _ _).bind fun s hs => Returns.pure ?_
      have hlen : ¬ s.len > 65535 := by
        rw [Str.len, hs]
        omega
      refine ⟨trivial, Value.Sorted.string s, ⟨4 :: sized 2 s.bytes, ?_⟩, rfl⟩
      rw [encodeJsonValue, overflowIf_of_not hlen]
      rfl
    · refine (Returns.any _).bind fun count _ => Returns.guard fun hcount => ?_
      refine (ih.readMany _).bind fun items hitems => Returns.pure ?_
      exact returned_array (hitems.1 ▸ Nat.not_lt.mp hcount) hitems.2
    · refine (Returns.any _).bind fun count _ => Returns.guard fun hcount => ?_
      refine (returns_entries ih _ (entries_nil _)).bind fun fields hfields => Returns.pure ?_
      exact returned_object (hfields.mono (by rw [Nat.zero_add]; exact Nat.not_lt.mp hcount))
    · exact Returns.wireError _

theorem returns_metadata : Returns decodeMetadataBinary
    (Entries (Value.Returned (maxMetadataDepth + 1)) maxMetadataEntries) := by
  refine (Returns.any _).bind fun count _ => Returns.guard fun hcount => ?_
  refine (returns_entries (returns_returned _) _ (entries_nil _)).mono fun m hm => hm.mono ?_
  rw [Nat.zero_add]
  exact Nat.not_lt.mp hcount

/-! ### Records that were decoded -/

/-- An optional field as it is returned: not empty, and within its length prefix. -/
structure Short (o : Option (List UInt8)) : Prop where
  present_eq : present o = o
  length_le : (o.getD []).length ≤ 65535

theorem short_none : Short none := ⟨rfl, Nat.zero_le _⟩

theorem returns_readOptionalU16 : Returns readOptionalU16 Short := by
  refine (Returns.any _).bind fun len _ => Returns.ite (fun _ => Returns.pure short_none)
    fun hne => ?_
  refine (Returns.readBytes _).bind fun l hl => Returns.pure ⟨present_some ?_, ?_⟩
  · rintro rfl
    exact hne (UInt16.toNat_inj.mp hl.symm)
  · exact hl.le.trans (Nat.le_of_lt_succ len.toNat_lt)

theorem Short.encoded {o : Option (List UInt8)} (h : Short o) :
    ∃ bytes, encodeOptionalU16 o = some bytes := by
  cases o with
  | none => exact ⟨_, rfl⟩
  | some d => exact ⟨_, if_pos h.length_le⟩

namespace ValidationRecord

structure Decoded [Unicode] (r : ValidationRecord) : Prop where
  accepted : r.Accepted
  hash_len : r.contentHash.length = 32
  key_le : r.creatorPublicKey.length ≤ 65535
  metadata : Entries (Value.Returned (maxMetadataDepth + 1)) maxMetadataEntries r.metadata
  zk : present r.zkProof = r.zkProof ∧ (r.zkProof.getD []).length < 2 ^ 32
  signature : Short r.signature
  sphincs : Short r.sphincsSignature
  itc : Short r.itcStamp
  ref_len : ∀ zref ∈ r.zoneRefs, zref.length = 24
  sphincsPk : Short r.creatorSphincsPk
  second : (if r.secondByte = 0 then none else some r.secondByte) = r.sphincsAlgorithm
  zone : ∀ z ∈ r.zone, ∃ path : Str, z = ZoneId.new path.bytes
  identity : r.identityHashWire = none
  nonce : (if 5 ≤ r.version then r.nonce else 0) = r.nonce
  network : (if 6 ≤ r.version then r.networkId else Str.empty) = r.networkId

theorem returns_readItcAndZoneRefs : Returns readItcAndZoneRefs fun p =>
    Short p.1 ∧ p.2.length ≤ maxZoneRefs ∧ ∀ zref ∈ p.2, zref.length = 24 := by
  refine returns_readOptionalU16.bind fun itc hitc => (Returns.any _).bind fun n _ => ?_
  refine Returns.guard fun hn => ((Returns.readBytes 24).readMany _).bind fun refs hrefs => ?_
  exact Returns.pure ⟨hitc, hrefs.1 ▸ Nat.not_lt.mp hn, hrefs.2⟩

def Algorithms (version : UInt16) (p : UInt8 × Option UInt8) : Prop :=
  p.1 = algDilithium3 ∧
    (p.2 = none ∨ p.2 = recordSecondLegAlgorithm version ∧ ∃ c : UInt8, c ≠ 0 ∧ p.2 = some c)

theorem returns_readAlgorithms (version : UInt16) :
    Returns (readAlgorithms version) (Algorithms version) := by
  refine (Returns.any _).bind fun primary _ => (Returns.any _).bind fun secondary _ => ?_
  refine Returns.guard fun hprimary => ?_
  have hprimary := not_not.mp hprimary
  refine Returns.ite (fun _ => Returns.pure ⟨hprimary, Or.inl rfl⟩) fun hne => ?_
  refine Returns.ite (fun hleg => ?_) fun _ => ?_
  · exact Returns.pure ⟨hprimary, Or.inr ⟨hleg, secondary, hne, rfl⟩⟩
  · split <;> exact Returns.wireError _

/-- The byte of the second algorithm tells whether there is one. -/
theorem Algorithms.byte {version : UInt16} {p : UInt8 × Option UInt8} (h : Algorithms version p) :
    (if p.2.getD 0 = 0 then none else some (p.2.getD 0)) = p.2 ∧
    (p.2.getD 0 = 0 ∨ some (p.2.getD 0) = recordSecondLegAlgorithm version) ∧
    (p.2.getD 0 ≠ 0 ↔ p.2.isSome = true) := by
  obtain ⟨primary, second⟩ := p
  obtain ⟨-, rfl | ⟨hleg, c, hc, rfl⟩⟩ := h
  · exact ⟨rfl, Or.inl rfl, by simp⟩
  · exact ⟨if_neg hc, Or.inr hleg, iff_of_true hc rfl⟩

theorem exists_path_of_fromWireBytes [Unicode] {data : List UInt8} {z : ZoneId} {n : ℕ}
    (h : ZoneId.fromWireBytes data = some (z, n)) : ∃ path : Str, z = ZoneId.new path.bytes := by
  unfold ZoneId.fromWireBytes at h
  split at h
  · cases h
  · dsimp only at h
    split at h
    · cases h
    · split at h
      · next path _ => exact ⟨path, (congrArg Prod.fst (Option.some.inj h)).symm⟩
      · cases h

theorem returns_readZone [Unicode] : Returns readZone fun o =>
    ∀ z ∈ o, ∃ path : Str, z = ZoneId.new path.bytes := by
  refine (Returns.any _).bind fun flag _ => Returns.ite (fun _ => ?_)
    fun _ => Returns.pure (by simp)
  refine (Returns.any _).bind fun r _ => ?_
  cases hwire : ZoneId.fromWireBytes r.remainingBytes with
  | none => exact Returns.pure (by simp)
  | some p =>
    refine (Returns.any _).bind fun _ _ => Returns.pure fun z hz => ?_
    obtain rfl := Option.some.inj hz
    exact exists_path_of_fromWireBytes hwire

/-- **What the decoder returns can be written again**, field by field. -/
theorem decoded_of_fromBytes [Unicode] {data : List UInt8} {r : ValidationRecord}
    (h : fromBytes data = .ok r) : r.Decoded := by
  refine of_fromBytes ?_ h
  refine returns_readHeader.bind fun header hversion => ?_
  refine (returns_readId _ _).bind fun id hid => ?_
  refine (Returns.readBytes _).bind fun hash hhash => ?_
  refine returns_readU16Prefixed.bind fun key hkey => ?_
  refine (Returns.any _).bind fun timestamp _ => ?_
  refine returns_readParents.bind fun parents hparents => ?_
  refine (Returns.any _).bind fun classVal _ => (Returns.any _).bind fun classification _ => ?_
  refine returns_metadata.bind fun metadata hmetadata => ?_
  refine returns_readOptionalU32.bind fun zk hzk => ?_
  refine returns_readOptionalU16.bind fun signature hsignature => ?_
  refine (returns_ifRemaining returns_readOptionalU16 short_none).bind fun sphincs hsphincs => ?_
  refine Returns.bind (P := fun p => Short p.1 ∧ p.2.length ≤ maxZoneRefs ∧
    ∀ zref ∈ p.2, zref.length = 24) ?_ fun stamps hstamps => ?_
  · refine Returns.ite (fun _ => ?_) fun _ => Returns.pure ⟨short_none, Nat.zero_le _, by simp⟩
    exact returns_ifRemaining returns_readItcAndZoneRefs ⟨short_none, Nat.zero_le _, by simp⟩
  refine (returns_ifRemaining returns_readOptionalU16 short_none).bind fun pk hpk => ?_
  refine (returns_ifRemaining (returns_readAlgorithms header.1) ⟨rfl, Or.inl rfl⟩).bind
    fun algorithms halgorithms => ?_
  refine Returns.bind (P := fun o => ∀ z ∈ o, ∃ path : Str, z = ZoneId.new path.bytes) ?_
    fun zone hzone => ?_
  · refine Returns.ite (fun _ => ?_) fun _ => Returns.pure (by simp)
    exact returns_ifRemaining returns_readZone (by simp)
  refine Returns.bind (P := fun nonce : UInt64 => (if 5 ≤ header.1 then nonce else 0) = nonce) ?_
    fun nonce hnonce => ?_
  · refine Returns.ite (fun h5 => ?_) fun h5 => Returns.pure (if_neg h5)
    exact (Returns.any _).mono fun _ _ => if_pos h5
  refine Returns.bind (P := fun nid : Str => (nid.len ≤ maxNetworkIdLen ∧ nid.isAscii = true) ∧
    (if 6 ≤ header.1 then nid else Str.empty) = nid) ?_ fun nid hnid => ?_
  · refine Returns.ite (fun h6 => ?_) fun h6 => Returns.pure ⟨⟨Nat.zero_le _, rfl⟩, if_neg h6⟩
    exact (returns_ifRemaining returns_readNetworkId ⟨Nat.zero_le _, rfl⟩).mono
      fun _ hnid => ⟨hnid, if_pos h6⟩
  refine Returns.guard fun h₁ => Returns.guard fun h₂ => Returns.guard fun h₃ => Returns.pure ?_
  obtain ⟨hsecond, hleg, hsome⟩ := halgorithms.byte
  have hzk' : present zk = zk ∧ (zk.getD []).length < 2 ^ 32 := by
    cases zk with
    | none => exact ⟨rfl, Nat.two_pow_pos 32⟩
    | some l => exact ⟨present_some (hzk l rfl).1, (hzk l rfl).2⟩
  refine ⟨⟨⟨hversion, hid, hparents, ⟨hmetadata.count, fun e he =>
    (hmetadata.entry e he).2.accepted⟩, hstamps.2.1, halgorithms.1, hleg⟩, fun _ => hnid.1, ?_, ?_⟩,
    hhash, Nat.le_of_lt_succ hkey, hmetadata, hzk', hsignature, hsphincs, hstamps.1, hstamps.2.2,
    hpk, hsecond, hzone, rfl, hnonce, hnid.2⟩
  · refine hsome.trans (Iff.trans ?_ (by rw [hsphincs.present_eq]))
    refine ⟨fun halg => ?_, fun hsig => ?_⟩
    · exact Option.isSome_iff_ne_none.mpr fun hnone => h₁ ⟨halg, Option.isNone_iff_eq_none.mpr hnone⟩
    · exact Option.isSome_iff_ne_none.mpr fun hnone => h₂ ⟨hsig, Option.isNone_iff_eq_none.mpr hnone⟩
  · intro hbyte
    rw [hpk.present_eq]
    exact Option.isSome_iff_ne_none.mpr fun hnone =>
      h₃ ⟨hsome.mp hbyte, Option.isNone_iff_eq_none.mpr hnone⟩

namespace Decoded

variable [Unicode] {r : ValidationRecord}

theorem fitsFront (h : r.Decoded) : r.FitsFront where
  id_le := h.accepted.1.id.2.trans (by decide)
  hash_len := h.hash_len
  parents_le := h.accepted.1.parents.1.trans (by decide)
  parent_le p hp := (h.accepted.1.parents.2 p hp).2.trans (by decide)
  keys := h.metadata.increasing
  sorted e he := (h.metadata.entry e he).2.sorted
  metadata_ok := by
    obtain ⟨body, hbody⟩ := encodeFields_of_returned fun e he =>
      ⟨(h.metadata.entry e he).1, (h.metadata.entry e he).2.encoded⟩
    refine ⟨bigEndian 2 r.metadata.length ++ body, ?_⟩
    rw [encodeMetadataBinary,
      overflowIf_of_not (Nat.not_lt.mpr (h.metadata.count.trans (by decide))), hbody]
    rfl
  zk_len := h.zk.2
  refs_le := h.accepted.1.refs.trans (by decide)
  ref_len := h.ref_len

/-- No field is too long to be written. -/
theorem exists_toBytes (h : r.Decoded) : ∃ bytes, r.toBytes = some bytes := by
  obtain ⟨signature, hsignature⟩ := h.signature.encoded
  obtain ⟨sphincs, hsphincs⟩ := h.sphincs.encoded
  obtain ⟨itc, hitc⟩ := h.itc.encoded
  obtain ⟨pk, hpk⟩ := h.sphincsPk.encoded
  have hagility : ∃ agility, r.encodeAgility = some agility := by
    unfold encodeAgility
    rw [hitc, hpk]
    split <;> exact ⟨_, rfl⟩
  obtain ⟨agility, hagility⟩ := hagility
  have hnetwork : ∃ network, r.encodeNetworkId = some network := by
    unfold encodeNetworkId
    split
    · next h6 => exact ⟨_, if_pos ((h.accepted.2.network h6).1.trans (by decide))⟩
    · exact ⟨_, rfl⟩
  obtain ⟨network, hnetwork⟩ := hnetwork
  refine Option.isSome_iff_exists.mp ?_
  rw [toBytes, encodeU16Prefixed, if_pos h.key_le, hsignature, hsphincs, hagility, hnetwork]
  rfl

/-- Only the zone may change. -/
theorem received_eq (h : r.Decoded) :
    r.received = { r with zone := r.zone.map fun z => ZoneId.new z.path } := by
  have hmetadata : Value.wiredFields r.metadata = r.metadata :=
    (Value.wiredFields_eq_self_iff fun e _ => Value.wired_eq_self_iff e.2).mpr
      (allI64Fields_iff.mpr fun e he => (h.metadata.entry e he).2.i64)
  unfold received
  rw [hmetadata, h.signature.present_eq, h.sphincs.present_eq, h.zk.1, h.itc.present_eq,
    h.sphincsPk.present_eq, h.second, h.nonce, h.network, ← h.identity]

theorem received_eq_self_iff (h : r.Decoded) :
    r.received = r ↔ ∀ z ∈ r.zone, ZoneId.new z.path = z := by
  have hmap : r.received = r ↔ (r.zone.map fun z => ZoneId.new z.path) = r.zone := by
    rw [h.received_eq]
    refine ⟨fun heq => congrArg ValidationRecord.zone heq, fun heq => ?_⟩
    rw [heq]
  rw [hmap]
  cases r.zone with
  | none => simp
  | some z => simp

end Decoded

end ValidationRecord

/-- What the argument needs of the Unicode tables: results are valid strings, trimming takes a
part of a string, and a part of a string in lower case is in lower case. -/
structure Unicode.Lawful [Unicode] : Prop where
  valid_trim : ∀ s : Str, utf8Error 0 (Unicode.trim s.bytes) = none
  valid_lower : ∀ s : Str, utf8Error 0 (Unicode.toLowercase s.bytes) = none
  trim_part : ∀ s : Str, Unicode.trim s.bytes <:+: s.bytes
  lower_part : ∀ s t : Str, t.bytes <:+: Unicode.toLowercase s.bytes →
    Unicode.toLowercase t.bytes = t.bytes

namespace ZoneId

variable [Unicode]

/-- The steps of the normalization: a trimmed string, and the path, a part of it in lower case;
or the root zone. -/
theorem exists_steps (hu : Unicode.Lawful) (path : Str) : ∃ trimmed lower : Str,
    trimmed.bytes = Unicode.trim path.bytes ∧
    lower.bytes = Unicode.toLowercase trimmed.bytes ∧
    (new path.bytes).path = if lower.bytes.rdropWhile (· = 0x2f) = [] then defaultPath
      else lower.bytes.rdropWhile (· = 0x2f) := by
  refine ⟨⟨_, hu.valid_trim path⟩, ⟨_, hu.valid_lower ⟨_, hu.valid_trim path⟩⟩, rfl, rfl, ?_⟩
  unfold new
  dsimp only
  split <;> rfl

theorem exists_str (hu : Unicode.Lawful) (path : Str) :
    ∃ s : Str, new path.bytes = ⟨s.bytes⟩ := by
  obtain ⟨trimmed, lower, -, -, hpath⟩ := exists_steps hu path
  have hvalid : utf8Error 0 (new path.bytes).path = none := by
    rw [hpath]
    split
    · rfl
    · refine valid_rdropWhile (fun b hb => ?_) lower.valid
      rw [of_decide_eq_true hb]
      decide
  exact ⟨⟨_, hvalid⟩, rfl⟩

/-- A part of a path is not made longer: it is in lower case. -/
theorem length_new_part (hu : Unicode.Lawful) {path part : Str}
    (hroot : (new path.bytes).path ≠ defaultPath)
    (hpart : part.bytes <:+: (new path.bytes).path) :
    (new part.bytes).path.length ≤ max part.len 7 := by
  obtain ⟨trimmed, lower, -, hlower, hpath⟩ := exists_steps hu path
  obtain ⟨trimmed', lower', htrimmed', hlower', hpath'⟩ := exists_steps hu part
  have hinfix : trimmed'.bytes <:+: Unicode.toLowercase trimmed.bytes := by
    rw [hpath] at hroot hpart
    split at hroot
    · exact absurd rfl hroot
    · next hne =>
      rw [if_neg hne] at hpart
      rw [← hlower, htrimmed']
      exact ((hu.trim_part part).trans hpart).trans (List.rdropWhile_prefix _ _).isInfix
  have hlength : lower'.bytes.length ≤ part.len := by
    rw [hlower', hu.lower_part trimmed trimmed' hinfix, htrimmed']
    exact (hu.trim_part part).length_le
  rw [hpath']
  split
  · exact le_max_right _ _
  · exact le_max_of_le_left ((List.rdropWhile_prefix _ _).length_le.trans hlength)

end ZoneId

namespace ValidationRecord

variable {rest bytes : List UInt8} {z : ZoneId} {s s' : WireReader} {r : ValidationRecord}

/-- A path too long for its length prefix: what is read is another zone. -/
theorem zone_ne_of_long [Unicode] (hu : Unicode.Lawful) {path : Str}
    (hlong : 65535 < (ZoneId.new path.bytes).path.length) {n : ℕ}
    (h : ZoneId.fromWireBytes (sized 2 (ZoneId.new path.bytes).path ++ rest) = some (z, n)) :
    z ≠ ZoneId.new path.bytes := by
  rw [fromWireBytes_sized] at h
  split at h
  · next part hpart =>
    intro hz
    have hbytes := Str.bytes_fromUtf8 hpart
    have hinfix : part.bytes <:+: (ZoneId.new path.bytes).path :=
      hbytes ▸ (List.take_prefix _ _).isInfix
    have hlen : part.len ≤ 65535 := by
      rw [Str.len, hbytes, List.length_take]
      omega
    have hroot : (ZoneId.new path.bytes).path ≠ ZoneId.defaultPath := by
      intro hdefault
      rw [hdefault] at hlong
      exact absurd hlong (by decide)
    have hle := ZoneId.length_new_part hu hroot hinfix
    have hnew : ZoneId.new part.bytes = z := congrArg Prod.fst (Option.some.inj h)
    rw [hnew, hz] at hle
    omega
  · cases h

theorem read_bind_ok {α β : Type} {x : Read α} {f : α → Read β} {b : β}
    (h : (x >>= f) s = .ok (b, s')) : ∃ a s₁, x s = .ok (a, s₁) ∧ f a s₁ = .ok (b, s') := by
  change (x s >>= fun p => f p.1 p.2) = .ok (b, s') at h
  cases hx : x s with
  | error e =>
    rw [hx] at h
    cases h
  | ok p =>
    rw [hx] at h
    exact ⟨p.1, p.2, rfl, h⟩

theorem zone_of_readZone [Unicode] {zone : Option ZoneId} (h : readZone s = .ok (zone, s'))
    (hs : s.Ahead (encodeZone (some z) ++ rest)) :
    zone = (ZoneId.fromWireBytes (sized 2 z.path ++ rest)).map Prod.fst := by
  obtain ⟨flag, s₁, hflag, h⟩ := read_bind_ok h
  obtain ⟨s₂, hone, hs₂⟩ := (Reads.readByte 1 s (sized 2 z.path ++ rest) hs).1 trivial
  obtain ⟨rfl, rfl⟩ := Prod.mk.inj (Except.ok.inj (hflag.symm.trans hone))
  rw [if_pos rfl] at h
  rw [← hs₂.bytes_eq]
  exact (Prod.mk.inj (Except.ok.inj (h.symm.trans (readZone_body s₁)))).1

/-- The zone that is read, whatever follows it. -/
theorem zone_of_readBack [Unicode] {record : ValidationRecord}
    (h : readBack record s = .ok (r, s')) (h3 : 3 ≤ record.version)
    (hs : s.Ahead (encodeZone (some z) ++ rest)) :
    r.zone = (ZoneId.fromWireBytes (sized 2 z.path ++ rest)).map Prod.fst := by
  obtain ⟨zone, s₁, hzone, htail⟩ := read_bind_ok h
  have hreturn : r.zone = zone := by
    refine (show Returns _ fun r' : ValidationRecord => r'.zone = zone from ?_) s₁ r s' htail
    refine (Returns.any _).bind fun nonce _ => (Returns.any _).bind fun networkId _ => ?_
    exact Returns.guard fun _ => Returns.guard fun _ => Returns.guard fun _ => Returns.pure rfl
  have hremaining : 1 ≤ s.remaining := by
    rw [hs.length_eq, List.length_append]
    exact (length_encodeZone_pos _).trans (Nat.le_add_right _ _)
  rw [extension, if_pos h3] at hzone
  change (if 1 ≤ s.remaining then readZone else pure none) s = .ok (zone, s₁) at hzone
  rw [if_pos hremaining] at hzone
  rw [hreturn]
  exact zone_of_readZone hzone hs

/-! ### Any number of hops -/

/-- The record after some hops, each of them written and read. -/
def relay [Unicode] : ℕ → ValidationRecord → Option ValidationRecord
  | 0, r => some r
  | hops + 1, r => do
    let bytes ← r.toBytes
    let r ← (fromBytes bytes).toOption
    relay hops r

theorem relay_of_once [Unicode]
    (hbytes : r.toBytes = some bytes) (hread : fromBytes bytes = .ok r) (hops : ℕ) :
    relay hops r = some r := by
  induction hops with
  | zero => rfl
  | succ hops ih =>
    rw [relay, hbytes]
    change ((fromBytes bytes).toOption >>= fun r => relay hops r) = some r
    rw [hread]
    exact ih

theorem once_of_relay [Unicode]
    (hbytes : r.toBytes = some bytes) (h : relay 1 r = some r) : fromBytes bytes = .ok r := by
  rw [relay, hbytes] at h
  change ((fromBytes bytes).toOption >>= fun r => relay 0 r) = some r at h
  cases hread : fromBytes bytes with
  | error e =>
    rw [hread] at h
    cases h
  | ok r' =>
    rw [hread] at h
    exact congrArg Except.ok (Option.some.inj h)

/-- A zone path that is too long does not come back. -/
theorem not_fromBytes_of_long [Unicode] (hu : Unicode.Lawful)
    (hdecoded : r.Decoded) (hz : z ∈ r.zone) (hlong : 65535 < z.path.length)
    (hbytes : r.toBytes = some bytes) : fromBytes bytes ≠ .ok r := by
  intro hread
  obtain ⟨path, rfl⟩ := hdecoded.zone z hz
  obtain ⟨s', hs'⟩ := readRecord_of_fromBytes hread
  obtain ⟨front, rfl, hruns⟩ := runs_readRecord hdecoded.fitsFront hbytes
  have hahead : (WireReader.new (front ++ r.backBytes)).Ahead (front ++ r.backBytes) :=
    ⟨Nat.zero_le _, rfl⟩
  obtain ⟨s₁, hrun, hs₁⟩ := (hruns _ _ hahead).1 hdecoded.accepted.1
  have h3 : 3 ≤ r.version := UInt16.le_trans (by decide) hdecoded.accepted.1.version.1
  rw [backBytes, if_pos h3, Option.mem_def.mp hz] at hs₁
  have hzone := zone_of_readBack (hrun.symm.trans hs') h3 hs₁
  rw [Option.mem_def.mp hz] at hzone
  obtain ⟨⟨z', n⟩, hwire, hz'⟩ := Option.map_eq_some_iff.mp hzone.symm
  exact zone_ne_of_long hu hlong hwire hz'

/-- **A decoded record is relayed unchanged through any number of nodes**, if and only if the
path of its zone fits and is normalized. -/
theorem relay_iff [Unicode] (hu : Unicode.Lawful) {data : List UInt8} {r : ValidationRecord}
    (h : fromBytes data = .ok r) :
    (∀ hops, relay hops r = some r) ↔
      ∀ z ∈ r.zone, z.path.length ≤ 65535 ∧ ZoneId.new z.path = z := by
  have hdecoded := decoded_of_fromBytes h
  obtain ⟨bytes, hbytes⟩ := hdecoded.exists_toBytes
  have honce : (∀ hops, relay hops r = some r) ↔ fromBytes bytes = .ok r :=
    ⟨fun hrelay => once_of_relay hbytes (hrelay 1), relay_of_once hbytes⟩
  rw [honce]
  by_cases hlong : ∃ z ∈ r.zone, 65535 < z.path.length
  · obtain ⟨z, hz, hlong⟩ := hlong
    refine iff_of_false (fun hread => ?_) fun hall => absurd (hall z hz).1 (Nat.not_le.mpr hlong)
    exact not_fromBytes_of_long hu hdecoded hz hlong hbytes hread
  · push Not at hlong
    have hfits : r.Fits := ⟨hdecoded.fitsFront, fun z hz => by
      obtain ⟨path, rfl⟩ := hdecoded.zone z hz
      obtain ⟨s, hs⟩ := ZoneId.exists_str hu path
      exact ⟨s, hs, by have := hlong _ hz; rwa [hs] at this⟩⟩
    rw [(fromBytes_toBytes hfits hbytes).1 hdecoded.accepted, Except.ok.injEq,
      hdecoded.received_eq_self_iff]
    exact ⟨fun hnew z hz => ⟨hlong z hz, hnew z hz⟩, fun hall z hz => (hall z hz).2⟩

end ValidationRecord

/-! ### A zone that is normalized twice -/

section Samples

attribute [local instance] asciiCase

theorem asciiLower_facts (b : UInt8) :
    (b < 0x80 → asciiLower b < 0x80) ∧ asciiLower (asciiLower b) = asciiLower b := by
  have h : ∀ n : Fin 256, (UInt8.ofFin n < 0x80 → asciiLower (UInt8.ofFin n) < 0x80) ∧
      asciiLower (asciiLower (UInt8.ofFin n)) = asciiLower (UInt8.ofFin n) := by
    decide +kernel
  exact h b.toFin

theorem asciiCase_lawful : Unicode.Lawful where
  valid_trim s := by
    have hspace : ∀ b : UInt8, decide (b = 0x20) = true → b < 0x80 := by
      intro b hb
      rw [of_decide_eq_true hb]
      decide
    exact valid_rdropWhile hspace (valid_dropWhile hspace s.valid)
  valid_lower s := by
    refine valid_map (fun b hb => ?_) (fun b hb => ?_) s.valid
    · exact (asciiLower_facts b).1 hb
    · exact if_neg fun h => absurd (UInt8.le_trans hb h.2) (by decide)
  trim_part s :=
    (List.rdropWhile_prefix _ _).isInfix.trans (List.dropWhile_suffix _).isInfix
  lower_part s t ht := by
    refine (List.map_congr_left fun b hb => ?_).trans (List.map_id' _)
    obtain ⟨c, -, rfl⟩ := List.mem_map.mp (ht.subset hb)
    exact (asciiLower_facts c).2

def zonedRecord (path : Str) : ValidationRecord :=
  { sampleRecord [] with zone := some ⟨path.bytes⟩ }

def zonedBytes (path : Str) : List UInt8 := (zonedRecord path).toBytes.getD []

/-- The zone `a/b` is relayed. -/
theorem zone_relayed :
    ValidationRecord.fromBytes (zonedBytes (Str.text "a/b")) = .ok (zonedRecord (Str.text "a/b")) ∧
      ∀ hops, ValidationRecord.relay hops (zonedRecord (Str.text "a/b")) =
        some (zonedRecord (Str.text "a/b")) := by
  have hread : ValidationRecord.fromBytes (zonedBytes (Str.text "a/b")) =
    .ok (zonedRecord (Str.text "a/b")) := rfl
  refine ⟨hread, (ValidationRecord.relay_iff asciiCase_lawful hread).mpr fun z hz => ?_⟩
  obtain rfl := Option.some.inj hz
  decide +kernel

/-- The zone `a /` is read as `a` with a blank behind it, and one hop later as `a`. -/
theorem zone_renormalized :
    ValidationRecord.fromBytes (zonedBytes (Str.text "a /")) =
      .ok (zonedRecord (Str.text "a ")) ∧
    ValidationRecord.relay 1 (zonedRecord (Str.text "a ")) =
      some (zonedRecord (Str.text "a")) ∧
    zonedRecord (Str.text "a") ≠ zonedRecord (Str.text "a ") := by
  refine ⟨rfl, rfl, fun h => ?_⟩
  exact absurd (congrArg ValidationRecord.zone h) (by decide)

end Samples

end Record
end ElaraMesh
