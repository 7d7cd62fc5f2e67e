import ElaraMesh.Dht.Diversity
import Mathlib.Data.List.GetD

/-!
# Well-formed routing tables

A bucket holds at most eight peers, a peer sits in the bucket of the number of bits that its
identifier and the local one have in common at the front, and no identifier occurs twice.  The
first two hold in every state.  The last does not: where a bucket is full, a peer is put in by a
second call, after the oldest one was asked, and that call does not look whether the peer has come
in since.

## Main results

* `bucketIndex_eq_some_iff` — the bucket is the length of the common part.
* `wellFormed_iff` — a table is well formed throughout a run exactly if no call of it doubles a
  peer.
-/

namespace ElaraMesh.Dht

open Record (Str)

/-! ### The bits of an identifier -/

/-- A bit of a list of bytes, the highest bit of a byte first. -/
def bitAt (l : List UInt8) (j : ℕ) : Bool := (l.getD (j / 8) 0).toNat.testBit (7 - j % 8)

def NodeId.bit (id : NodeId) (j : ℕ) : Bool := bitAt id.bytes j

/-- The first `n` bits of two identifiers are the same, and the next one is not. -/
def SharedPrefix (a b : NodeId) (n : ℕ) : Prop := (∀ j < n, a.bit j = b.bit j) ∧ a.bit n ≠ b.bit n

theorem size_toNat_le (b : UInt8) : Nat.size b.toNat ≤ 8 := Nat.size_le.mpr b.toNat_lt

theorem testBit_leadingZeros {b : UInt8} (hb : b ≠ 0) :
    b.toNat.testBit (7 - leadingZeros b) = true := by
  have hpos : 0 < Nat.size b.toNat := by
    rw [Nat.size_pos, Nat.pos_iff_ne_zero]
    exact fun h => hb (UInt8.toNat_inj.mp h)
  have hplace : 7 - leadingZeros b = Nat.size b.toNat - 1 := by
    have hle := size_toNat_le b
    unfold leadingZeros
    omega
  rw [hplace]
  refine Nat.testBit_of_two_pow_le_and_two_pow_add_one_gt ?_ ?_
  · exact Nat.lt_size.mp (Nat.sub_lt hpos Nat.one_pos)
  · rw [Nat.sub_add_cancel hpos]
    exact Nat.lt_size_self _

theorem testBit_of_lt_leadingZeros {b : UInt8} {j : ℕ} (hj : j < leadingZeros b) :
    b.toNat.testBit (7 - j) = false := by
  refine Nat.testBit_lt_two_pow (lt_of_lt_of_le (Nat.lt_size_self _) ?_)
  refine Nat.pow_le_pow_right two_pos ?_
  unfold leadingZeros at hj
  omega

variable {l : List UInt8}

/-- Where the first bit is found, all bytes before it are zero. -/
theorem firstBit_eq_some {i n : ℕ} (h : firstBit i l = some n) :
    ∃ zeros b rest, l = zeros ++ b :: rest ∧ (∀ c ∈ zeros, c = 0) ∧ b ≠ 0 ∧
      n = (i + zeros.length) * 8 + leadingZeros b := by
  induction l generalizing i with
  | nil => cases h
  | cons b l ih =>
    unfold firstBit at h
    split at h
    · next hb =>
      cases h
      exact ⟨[], b, l, rfl, List.forall_mem_nil _, hb, rfl⟩
    · next hb =>
      obtain ⟨zeros, b', rest, rfl, hzeros, hb', hn⟩ := ih h
      refine ⟨b :: zeros, b', rest, rfl, ?_, hb', ?_⟩
      · exact List.forall_mem_cons.mpr ⟨not_not.mp hb, hzeros⟩
      · rw [hn, List.length_cons]
        omega

theorem firstBit_eq_none {i : ℕ} (h : firstBit i l = none) : ∀ b ∈ l, b = 0 := by
  induction l generalizing i with
  | nil => exact List.forall_mem_nil _
  | cons b l ih =>
    unfold firstBit at h
    split at h
    · cases h
    · next hb => exact List.forall_mem_cons.mpr ⟨not_not.mp hb, ih h⟩

theorem bitAt_of_zero {j : ℕ} (h : l.getD (j / 8) 0 = 0) : bitAt l j = false := by
  unfold bitAt
  rw [h]
  exact Nat.zero_testBit _

theorem bitAt_firstBit {n : ℕ} (h : firstBit 0 l = some n) :
    (∀ j < n, bitAt l j = false) ∧ bitAt l n = true := by
  obtain ⟨zeros, b, rest, rfl, hzeros, hb, hn⟩ := firstBit_eq_some h
  have hlt := leadingZeros_lt hb
  have hbyte : (zeros ++ b :: rest).getD zeros.length 0 = b := by simp
  constructor
  · intro j hj
    rcases Nat.lt_or_ge (j / 8) zeros.length with hbefore | hat
    · refine bitAt_of_zero (hzeros _ ?_)
      rw [List.getD_append _ _ _ _ hbefore, List.getD_eq_getElem _ _ hbefore]
      exact List.getElem_mem hbefore
    · have hj8 : j / 8 = zeros.length := by omega
      unfold bitAt
      rw [hj8, hbyte]
      exact testBit_of_lt_leadingZeros (by omega)
  · have hn8 : n / 8 = zeros.length := by omega
    have hmod : n % 8 = leadingZeros b := by omega
    unfold bitAt
    rw [hn8, hbyte, hmod]
    exact testBit_leadingZeros hb

/-- The bits of the distance are those in which two identifiers differ. -/
theorem bitAt_distance (a b : NodeId) (j : ℕ) :
    bitAt (a.distance b) j = (a.bit j ^^ b.bit j) := by
  have hbyte : (a.distance b).getD (j / 8) 0 = a.bytes.getD (j / 8) 0 ^^^ b.bytes.getD (j / 8) 0 := by
    unfold NodeId.distance
    rcases Nat.lt_or_ge (j / 8) 32 with hj | hj
    · have ha : j / 8 < a.bytes.length := a.length_bytes.symm ▸ hj
      have hb : j / 8 < b.bytes.length := b.length_bytes.symm ▸ hj
      have hzip : j / 8 < (List.zipWith (· ^^^ ·) a.bytes b.bytes).length := by
        rw [List.length_zipWith]
        exact lt_min ha hb
      rw [List.getD_eq_getElem _ _ ha, List.getD_eq_getElem _ _ hb, List.getD_eq_getElem _ _ hzip,
        List.getElem_zipWith]
    · have ha : a.bytes.length ≤ j / 8 := a.length_bytes.symm ▸ hj
      have hb : b.bytes.length ≤ j / 8 := b.length_bytes.symm ▸ hj
      have hzip : (List.zipWith (· ^^^ ·) a.bytes b.bytes).length ≤ j / 8 := by
        rw [List.length_zipWith]
        exact (min_le_left _ _).trans ha
      rw [List.getD_eq_default _ _ ha, List.getD_eq_default _ _ hb, List.getD_eq_default _ _ hzip]
      rfl
  unfold bitAt NodeId.bit bitAt
  rw [hbyte, UInt8.toNat_xor, Nat.testBit_xor]

theorem sharedPrefix_iff (a b : NodeId) (n : ℕ) : SharedPrefix a b n ↔
    (∀ j < n, bitAt (a.distance b) j = false) ∧ bitAt (a.distance b) n = true := by
  unfold SharedPrefix
  simp only [bitAt_distance]
  simp

/-- The bucket of a peer is the number of bits that its identifier has in common with the local
one. -/
theorem bucketIndex_eq_some_iff (a b : NodeId) (i : Fin 256) :
    a.bucketIndex b = some i ↔ SharedPrefix a b i := by
  have hfirst : a.bucketIndex b = some i ↔ firstBit 0 (a.distance b) = some i.1 := by
    unfold NodeId.bucketIndex
    rw [Option.pmap_eq_some_iff]
    constructor
    · rintro ⟨n, hlt, hn, rfl⟩
      exact hn
    · exact fun h => ⟨i.1, i.2, h, rfl⟩
  rw [hfirst, sharedPrefix_iff]
  refine ⟨bitAt_firstBit, fun hshared => ?_⟩
  cases hbit : firstBit 0 (a.distance b) with
  | none =>
    have hzero : bitAt (a.distance b) i = false := by
      refine bitAt_of_zero ?_
      rcases Nat.lt_or_ge (i.1 / 8) (a.distance b).length with hlt | hge
      · rw [List.getD_eq_getElem _ _ hlt]
        exact firstBit_eq_none hbit _ (List.getElem_mem hlt)
      · exact List.getD_eq_default _ _ hge
    rw [hzero] at hshared
    cases hshared.2
  | some n =>
    obtain ⟨hbefore, hat⟩ := bitAt_firstBit hbit
    rcases Nat.lt_trichotomy n i with hlt | heq | hgt
    · rw [hshared.1 n hlt] at hat
      cases hat
    · rw [heq]
    · rw [hbefore i hgt] at hshared
      cases hshared.2

/-! ### Tables -/

def KBucket.ids (b : KBucket) : List NodeId := b.peers.map DhtPeer.nodeId

/-- No bucket is too large, no identifier occurs twice, and every peer is where it belongs. -/
structure WellFormed (t : RoutingTable) : Prop where
  size : ∀ i, (t.buckets i).peers.length ≤ k
  ids : (t.allPeers.map DhtPeer.nodeId).Nodup
  place : ∀ i, ∀ p ∈ (t.buckets i).peers, SharedPrefix t.localId p.nodeId i

/-- A call puts in a peer that stays in its bucket. -/
def Doubles (t : RoutingTable) : Call → Prop
  | .evictAndInsert peer => ∃ i, t.localId.bucketIndex peer.nodeId = some i ∧
      peer.nodeId ∈ (t.buckets i).younger.ids
  | _ => False

/-- What a bucket of a well-formed table is like. -/
structure BucketOk (localId : NodeId) (i : Fin 256) (b : KBucket) : Prop where
  size : b.peers.length ≤ k
  ids : b.ids.Nodup
  place : ∀ p ∈ b.peers, localId.bucketIndex p.nodeId = some i

/-- Peers of different buckets have different identifiers. -/
theorem wellFormed_iff_buckets (t : RoutingTable) :
    WellFormed t ↔ ∀ i, BucketOk t.localId i (t.buckets i) := by
  have hids : t.allPeers.map DhtPeer.nodeId = (List.finRange 256).flatMap fun i =>
      (t.buckets i).ids := by
    unfold RoutingTable.allPeers
    rw [List.map_flatMap]
    rfl
  constructor
  · intro h i
    have hnodup := h.ids
    rw [hids, List.nodup_flatMap] at hnodup
    exact ⟨h.size i, hnodup.1 i (List.mem_finRange i),
      fun p hp => (bucketIndex_eq_some_iff _ _ _).mpr (h.place i p hp)⟩
  · intro h
    refine ⟨fun i => (h i).size, ?_, fun i p hp =>
      (bucketIndex_eq_some_iff _ _ _).mp ((h i).place p hp)⟩
    rw [hids, List.nodup_flatMap]
    refine ⟨fun i _ => (h i).ids, (List.nodup_finRange 256).imp fun {i j} hij => ?_⟩
    -- an identifier in both would belong to both
    intro id hi hj
    obtain ⟨p, hp, rfl⟩ := List.mem_map.mp hi
    obtain ⟨q, hq, hpq⟩ := List.mem_map.mp hj
    have hplace := (h j).place q hq
    rw [hpq, (h i).place p hp] at hplace
    exact hij (Option.some.inj hplace)

theorem wellFormed_setBucket_iff {t : RoutingTable} (h : WellFormed t) (i : Fin 256)
    (b : KBucket) : WellFormed (t.setBucket i b) ↔ BucketOk t.localId i b := by
  rw [wellFormed_iff_buckets] at h ⊢
  have hat : (t.setBucket i b).buckets i = b := Function.update_self ..
  constructor
  · intro hall
    exact hat ▸ hall i
  · intro hb j
    by_cases hj : j = i
    · subst hj
      rw [hat]
      exact hb
    · have hother : (t.setBucket i b).buckets j = t.buckets j := Function.update_of_ne hj ..
      rw [hother]
      exact h j

namespace BucketOk

variable {localId : NodeId} {i : Fin 256} {b b' : KBucket}

theorem of_sublist (h : BucketOk localId i b) (hsub : b'.peers.Sublist b.peers) :
    BucketOk localId i b' :=
  ⟨hsub.length_le.trans h.size, h.ids.sublist (hsub.map _), fun p hp => h.place p (hsub.subset hp)⟩

variable {peer : DhtPeer}

/-- A peer that is put in at the end. -/
theorem push_iff (h : BucketOk localId i b)
    (hplace : localId.bucketIndex peer.nodeId = some i) (hroom : b.peers.length < k) :
    BucketOk localId i ⟨b.peers ++ [peer]⟩ ↔ peer.nodeId ∉ b.ids := by
  have hids : KBucket.ids ⟨b.peers ++ [peer]⟩ = b.ids ++ [peer.nodeId] := List.map_append
  constructor
  · intro hpush hmem
    have hnodup := hpush.ids
    rw [hids, List.nodup_append] at hnodup
    exact hnodup.2.2 _ hmem _ (List.mem_singleton_self _) rfl
  · intro hnew
    refine ⟨?_, ?_, ?_⟩
    · rw [List.length_append]
      exact hroom
    · rw [hids, ← List.concat_eq_append]
      exact h.ids.concat hnew
    · intro p hp
      rcases List.mem_append.mp hp with hp | hp
      · exact h.place p hp
      · rw [List.mem_singleton.mp hp]
        exact hplace

/-- A peer that is moved to the end, whatever else of it changes. -/
theorem move (h : BucketOk localId i b) {pos : ℕ} {moved : DhtPeer}
    (hpos : b.peers[pos]? = some peer) (hid : moved.nodeId = peer.nodeId) :
    BucketOk localId i ⟨b.peers.eraseIdx pos ++ [moved]⟩ := by
  obtain ⟨hlt, rfl⟩ := List.getElem?_eq_some_iff.mp hpos
  have hperm : (KBucket.ids ⟨b.peers.eraseIdx pos ++ [moved]⟩).Perm b.ids := by
    have hsplit : KBucket.ids ⟨b.peers.eraseIdx pos ++ [moved]⟩ =
        (b.peers.eraseIdx pos).map DhtPeer.nodeId ++ [b.peers[pos].nodeId] := by
      rw [← hid]
      exact List.map_append
    rw [hsplit]
    exact (List.perm_append_singleton _ _).trans
      ((List.getElem_cons_eraseIdx_perm hlt).map DhtPeer.nodeId)
  refine ⟨?_, hperm.nodup_iff.mpr h.ids, fun p hp => ?_⟩
  · have hlength := hperm.length_eq
    unfold KBucket.ids at hlength
    rw [List.length_map, List.length_map] at hlength
    exact hlength.trans_le h.size
  · -- the identifiers are those that were there
    have hmem : p.nodeId ∈ b.ids := hperm.subset (List.mem_map_of_mem hp)
    obtain ⟨q, hq, hqp⟩ := List.mem_map.mp hmem
    rw [← hqp]
    exact h.place q hq

/-- A peer in the place of the oldest one. -/
theorem evictAndInsert_iff (h : BucketOk localId i b)
    (hplace : localId.bucketIndex peer.nodeId = some i) :
    BucketOk localId i (b.evictAndInsert peer) ↔ peer.nodeId ∉ b.younger.ids := by
  refine (h.of_sublist (sublist_younger b)).push_iff hplace ?_
  have hsize := h.size
  unfold KBucket.younger
  unfold k at hsize ⊢
  dsimp only
  split
  · rw [List.length_tail]
    omega
  · omega

end BucketOk

theorem position_eq_some {b : KBucket} {id : NodeId} {pos : ℕ} (h : b.position id = some pos) :
    ∃ peer, b.peers[pos]? = some peer ∧ peer.nodeId = id := by
  obtain ⟨hlt, hid, -⟩ := List.findIdx?_eq_some_iff_getElem.mp h
  exact ⟨b.peers[pos], List.getElem?_eq_getElem hlt, of_decide_eq_true hid⟩

theorem notMem_ids_of_position {b : KBucket} {id : NodeId} (h : b.position id = none) :
    id ∉ b.ids := by
  intro hmem
  obtain ⟨p, hp, hid⟩ := List.mem_map.mp hmem
  have hne := List.findIdx?_eq_none_iff.mp h p hp
  exact of_decide_eq_false hne hid

section Calls

variable {t : RoutingTable}

theorem wellFormed_insert [Ipv6] (h : WellFormed t) (peer : DhtPeer) : WellFormed (t.insert peer).1 := by
  unfold RoutingTable.insert
  split
  · exact h
  dsimp only
  split
  swap
  · exact h
  next i hi =>
  have hb := (wellFormed_iff_buckets t).mp h i
  refine (wellFormed_setBucket_iff h i _).mpr ?_
  unfold KBucket.insert
  split
  · next pos hpos =>
    obtain ⟨known, hknown, hid⟩ := position_eq_some hpos
    exact hb.move hknown hid.symm
  next hpos =>
  split
  · exact hb
  split
  · next hroom => exact (hb.push_iff hi hroom).mpr (notMem_ids_of_position hpos)
  · exact hb

theorem wellFormed_evictAndInsert_iff (h : WellFormed t) (peer : DhtPeer) :
    WellFormed (t.evictAndInsert peer) ↔ ¬ Doubles t (.evictAndInsert peer) := by
  have hdoubles : ∀ i, t.localId.bucketIndex peer.nodeId = some i →
      (Doubles t (.evictAndInsert peer) ↔ peer.nodeId ∈ (t.buckets i).younger.ids) := by
    refine fun i hi => ⟨fun ⟨j, hj, hmem⟩ => ?_, fun hmem => ⟨i, hi, hmem⟩⟩
    cases hi.symm.trans hj
    exact hmem
  unfold RoutingTable.evictAndInsert
  split
  · next hself =>
    refine iff_of_true h ?_
    rintro ⟨i, hi, -⟩
    rw [hself, bucketIndex_self] at hi
    cases hi
  split
  · next i hi =>
    have hb := (wellFormed_iff_buckets t).mp h i
    rw [wellFormed_setBucket_iff h, hdoubles i hi]
    exact hb.evictAndInsert_iff hi
  · next hnone =>
    refine iff_of_true h ?_
    rintro ⟨i, hi, -⟩
    cases hnone.symm.trans hi

theorem wellFormed_touch (h : WellFormed t) (id : NodeId) (lastSeen : F64) :
    WellFormed (t.touch id lastSeen) := by
  unfold RoutingTable.touch
  split
  swap
  · exact h
  next i _ =>
  have hb := (wellFormed_iff_buckets t).mp h i
  refine (wellFormed_setBucket_iff h i _).mpr ?_
  unfold KBucket.touch
  split
  swap
  · exact hb
  split
  · next peer hpeer => exact hb.move hpeer rfl
  · exact hb

theorem wellFormed_remove (h : WellFormed t) (id : NodeId) : WellFormed (t.remove id).1 := by
  unfold RoutingTable.remove
  split
  swap
  · exact h
  next i _ =>
  refine (wellFormed_setBucket_iff h i _).mpr ?_
  exact ((wellFormed_iff_buckets t).mp h i).of_sublist (sublist_others _ id)

theorem wellFormed_rotateStalePeers (h : WellFormed t) (now : F64) :
    WellFormed (t.rotateStalePeers now).1 := by
  rw [wellFormed_iff_buckets] at h ⊢
  exact fun i => (h i).of_sublist List.filter_sublist

/-- Whether a call keeps a table well formed. -/
theorem wellFormed_step_iff [Ipv6] (h : WellFormed t) (call : Call) :
    WellFormed (t.step call) ↔ ¬ Doubles t call := by
  cases call with
  | insert peer => exact iff_of_true (wellFormed_insert h peer) not_false
  | evictAndInsert peer => exact wellFormed_evictAndInsert_iff h peer
  | touch id lastSeen => exact iff_of_true (wellFormed_touch h id lastSeen) not_false
  | remove id => exact iff_of_true (wellFormed_remove h id) not_false
  | rotateStalePeers now => exact iff_of_true (wellFormed_rotateStalePeers h now) not_false

theorem wellFormed_new (localId : NodeId) : WellFormed (RoutingTable.new localId) := by
  rw [wellFormed_iff_buckets]
  exact fun i => ⟨Nat.zero_le _, List.nodup_nil, List.forall_mem_nil _⟩

/-- A table is well formed in every state of a run exactly if no call puts a peer in the place of
the oldest one that is still in the bucket after that. -/
theorem wellFormed_iff [Ipv6] (localId : NodeId) (calls : List Call) :
    (∀ before, before <+: calls →
      WellFormed (before.foldl RoutingTable.step (RoutingTable.new localId))) ↔
    ∀ before call, before ++ [call] <+: calls →
      ¬ Doubles (before.foldl RoutingTable.step (RoutingTable.new localId)) call :=
  Runs.forall_prefix_iff (J := fun _ => True) (I := WellFormed) (C := fun t call => ¬ Doubles t call)
    (fun _ _ _ => trivial) (fun _ call _ h => wellFormed_step_iff h call) trivial
    (wellFormed_new localId) calls

end Calls

section Doubled

attribute [local instance] ipv4Only

/-- Eight peers fill a bucket. -/
def filled : List Call :=
  [.insert (peerAt 0x80 "a"), .insert (peerAt 0x81 "b"), .insert (peerAt 0x82 "c"),
    .insert (peerAt 0x83 "d"), .insert (peerAt 0x84 "e"), .insert (peerAt 0x85 "f"),
    .insert (peerAt 0x86 "g"), .insert (peerAt 0x87 "h")]

/-- While the oldest peer is asked, one of the others leaves and the new peer comes in; then the
oldest one does not answer. -/
def overtaken : List Call :=
  filled ++ [.insert (peerAt 0x88 "i"), .remove (nodeOf 0x87), .insert (peerAt 0x88 "i"),
    .evictAndInsert (peerAt 0x88 "i")]

/-- The new peer is in the bucket twice. -/
theorem overtaken_doubled :
    ((filled.foldl RoutingTable.step (RoutingTable.new (nodeOf 0))).insert (peerAt 0x88 "i")).2 =
      .pendingEviction (Str.text "") ∧
    (((overtaken.foldl RoutingTable.step (RoutingTable.new (nodeOf 0))).buckets 0).ids.count
      (nodeOf 0x88)) = 2 := by
  decide +kernel

end Doubled

end ElaraMesh.Dht
