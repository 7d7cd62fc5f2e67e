import ElaraMesh.Dht.RoutingTable
import ElaraMesh.Lib.Runs
import Mathlib.Algebra.BigOperators.Fin
import Mathlib.Algebra.Order.BigOperators.Group.Finset

/-!
# Peers of one subnet

At most two peers of a subnet are admitted to a bucket, and at most ten to the table, so
that an attacker with one subnet cannot surround a node.  The limits are looked at when a
peer that is not known comes to its bucket.  They are not looked at when a known peer
announces a new host, nor when a peer takes the place of one that did not answer.

Both of these take a peer out of a bucket and put one in.  The limits hold in every state of
a run exactly if, each time, the rest of the table has room for the peer that comes in.

## Main results

* `withinCaps_push_iff` — a peer may be put in exactly if there is room.
* `withinCaps_step_iff`, `withinCaps_iff` — one call, and a run.
-/

namespace ElaraMesh.Dht

open Record (Str)

/-- The peers of a bucket that stay when a known peer is updated. -/
def KBucket.others (b : KBucket) (id : NodeId) : KBucket := (b.remove id).1

theorem bucketIndex_self (id : NodeId) : id.bucketIndex id = none := by
  have hzero : ∀ (l : List UInt8) (i : ℕ), firstBit i (List.zipWith (· ^^^ ·) l l) = none := by
    intro l
    induction l with
    | nil => exact fun _ => rfl
    | cons b l ih =>
      intro i
      have hb : b ^^^ b = 0 := UInt8.xor_self
      rw [List.zipWith_cons_cons, hb]
      exact ih (i + 1)
  unfold NodeId.bucketIndex
  rw [Option.pmap_eq_none_iff]
  exact hzero id.bytes 0

theorem setBucket_setBucket (t : RoutingTable) (i : Fin 256) (b b' : KBucket) :
    (t.setBucket i b).setBucket i b' = t.setBucket i b' := by
  unfold RoutingTable.setBucket
  rw [Function.update_idem]

theorem setBucket_self (t : RoutingTable) (i : Fin 256) : t.setBucket i (t.buckets i) = t := by
  unfold RoutingTable.setBucket
  rw [Function.update_eq_self]

theorem sublist_others (b : KBucket) (id : NodeId) : (b.others id).peers.Sublist b.peers := by
  unfold KBucket.others KBucket.remove
  split
  · exact List.eraseIdx_sublist _ _
  · exact List.Sublist.refl _

theorem sublist_younger (b : KBucket) : b.younger.peers.Sublist b.peers := by
  unfold KBucket.younger
  dsimp only
  split
  · exact List.tail_sublist _
  · exact List.Sublist.refl _

section Caps

variable [Ipv6]

/-- No bucket has more than two peers of a subnet, and the table not more than ten. -/
def WithinCaps (t : RoutingTable) : Prop :=
  ∀ subnet, (∀ i, (t.buckets i).subnetCount subnet ≤ maxPerSubnetPerBucket) ∧
    t.tableSubnetCount subnet ≤ maxPerSubnetTotal

def Room (t : RoutingTable) (i : Fin 256) (peer : DhtPeer) : Prop :=
  ∀ subnet, subnetPrefix peer.host = some subnet →
    (t.buckets i).subnetCount subnet < maxPerSubnetPerBucket ∧
      t.tableSubnetCount subnet < maxPerSubnetTotal

/-- A call that puts in a peer without a look at the limits finds room for it, once the peer
whose place it takes is out. -/
def Keeps (t : RoutingTable) : Call → Prop
  | .insert peer => ∀ i, t.localId.bucketIndex peer.nodeId = some i →
      ((t.buckets i).position peer.nodeId).isSome →
      Room (t.setBucket i ((t.buckets i).others peer.nodeId)) i peer
  | .evictAndInsert peer => ∀ i, t.localId.bucketIndex peer.nodeId = some i →
      Room (t.setBucket i (t.buckets i).younger) i peer
  | _ => True

/-! ### Counts -/

theorem countSubnet_append (subnet : List UInt8) (l l' : List DhtPeer) :
    countSubnet subnet (l ++ l') = countSubnet subnet l + countSubnet subnet l' :=
  List.countP_append

theorem countSubnet_singleton (subnet : List UInt8) (peer : DhtPeer) :
    countSubnet subnet [peer] = if subnetPrefix peer.host = some subnet then 1 else 0 := by
  unfold countSubnet
  rw [List.countP_singleton]
  simp

theorem countSubnet_le_of_sublist {l l' : List DhtPeer} (h : l.Sublist l') (subnet : List UInt8) :
    countSubnet subnet l ≤ countSubnet subnet l' :=
  h.countP_le

theorem tableSubnetCount_eq_sum (t : RoutingTable) (subnet : List UInt8) :
    t.tableSubnetCount subnet = ∑ i, (t.buckets i).subnetCount subnet := by
  unfold RoutingTable.tableSubnetCount RoutingTable.allPeers countSubnet
  rw [List.countP_flatMap, ← List.ofFn_eq_map, List.sum_ofFn]
  rfl

theorem tableSubnetCount_setBucket (t : RoutingTable) (i : Fin 256) (b : KBucket)
    (subnet : List UInt8) :
    (t.setBucket i b).tableSubnetCount subnet + (t.buckets i).subnetCount subnet =
      t.tableSubnetCount subnet + b.subnetCount subnet := by
  rw [tableSubnetCount_eq_sum, tableSubnetCount_eq_sum]
  have hrest : ∀ b' : KBucket, ∑ j, ((t.setBucket i b').buckets j).subnetCount subnet =
      b'.subnetCount subnet + ∑ j ∈ Finset.univ.erase i, (t.buckets j).subnetCount subnet := by
    intro b'
    rw [← Finset.add_sum_erase _ _ (Finset.mem_univ i)]
    refine congrArg₂ (· + ·) ?_ (Finset.sum_congr rfl fun j hj => ?_)
    · simp [RoutingTable.setBucket]
    · simp [RoutingTable.setBucket, Finset.ne_of_mem_erase hj]
  rw [hrest b, ← Finset.add_sum_erase _ _ (Finset.mem_univ i)]
  omega

/-! ### One call -/

variable {t : RoutingTable} {i : Fin 256}

theorem withinCaps_of_le {t' : RoutingTable} (h : WithinCaps t)
    (hle : ∀ subnet i, (t'.buckets i).subnetCount subnet ≤ (t.buckets i).subnetCount subnet) :
    WithinCaps t' := by
  intro subnet
  refine ⟨fun i => (hle subnet i).trans ((h subnet).1 i), le_trans ?_ (h subnet).2⟩
  rw [tableSubnetCount_eq_sum, tableSubnetCount_eq_sum]
  exact Finset.sum_le_sum fun i _ => hle subnet i

theorem withinCaps_setBucket_of_le (h : WithinCaps t) {b : KBucket}
    (hle : ∀ subnet, b.subnetCount subnet ≤ (t.buckets i).subnetCount subnet) :
    WithinCaps (t.setBucket i b) := by
  refine withinCaps_of_le h fun subnet j => ?_
  by_cases hj : j = i
  · subst hj
    simpa [RoutingTable.setBucket] using hle subnet
  · simp [RoutingTable.setBucket, hj]

theorem subnetCount_push (b : KBucket) (peer : DhtPeer) (subnet : List UInt8) :
    KBucket.subnetCount ⟨b.peers ++ [peer]⟩ subnet =
      b.subnetCount subnet + if subnetPrefix peer.host = some subnet then 1 else 0 :=
  (countSubnet_append subnet _ _).trans (congrArg _ (countSubnet_singleton subnet peer))

/-- A peer may be put in exactly if there is room. -/
theorem withinCaps_push_iff (h : WithinCaps t) (i : Fin 256) (peer : DhtPeer) :
    WithinCaps (t.setBucket i ⟨(t.buckets i).peers ++ [peer]⟩) ↔ Room t i peer := by
  have htable : ∀ subnet,
      (t.setBucket i ⟨(t.buckets i).peers ++ [peer]⟩).tableSubnetCount subnet =
        t.tableSubnetCount subnet + if subnetPrefix peer.host = some subnet then 1 else 0 := by
    intro subnet
    have hset := tableSubnetCount_setBucket t i ⟨(t.buckets i).peers ++ [peer]⟩ subnet
    rw [subnetCount_push] at hset
    omega
  have hat : ∀ subnet,
      ((t.setBucket i ⟨(t.buckets i).peers ++ [peer]⟩).buckets i).subnetCount subnet =
        (t.buckets i).subnetCount subnet +
          if subnetPrefix peer.host = some subnet then 1 else 0 := by
    intro subnet
    rw [← subnetCount_push]
    simp [RoutingTable.setBucket]
  constructor
  · intro hafter subnet hsubnet
    have hcaps := hafter subnet
    have hbucket := hcaps.1 i
    rw [hat, if_pos hsubnet] at hbucket
    rw [htable, if_pos hsubnet] at hcaps
    exact ⟨hbucket, hcaps.2⟩
  · intro hroom subnet
    have hbefore := h subnet
    by_cases hsubnet : subnetPrefix peer.host = some subnet
    · obtain ⟨hbucket, htotal⟩ := hroom subnet hsubnet
      rw [htable, if_pos hsubnet]
      refine ⟨fun j => ?_, htotal⟩
      by_cases hj : j = i
      · rw [hj, hat, if_pos hsubnet]
        exact hbucket
      · simpa [RoutingTable.setBucket, hj] using hbefore.1 j
    · rw [htable, if_neg hsubnet]
      refine ⟨fun j => ?_, hbefore.2⟩
      by_cases hj : j = i
      · rw [hj, hat, if_neg hsubnet]
        exact hbefore.1 i
      · simpa [RoutingTable.setBucket, hj] using hbefore.1 j

/-- A peer may take the place of others exactly if there is room once they are out. -/
theorem withinCaps_replace_iff (h : WithinCaps t) {kept : KBucket}
    (hkept : kept.peers.Sublist (t.buckets i).peers) (peer : DhtPeer) :
    WithinCaps (t.setBucket i ⟨kept.peers ++ [peer]⟩) ↔ Room (t.setBucket i kept) i peer := by
  have hwithout : WithinCaps (t.setBucket i kept) :=
    withinCaps_setBucket_of_le h fun subnet => countSubnet_le_of_sublist hkept subnet
  have hpush := withinCaps_push_iff hwithout i peer
  have hat : (t.setBucket i kept).buckets i = kept := by
    simp [RoutingTable.setBucket]
  rwa [setBucket_setBucket, hat] at hpush

theorem room_congr {peer peer' : DhtPeer}
    (h : peer.host = peer'.host) : Room t i peer ↔ Room t i peer' := by
  unfold Room
  rw [h]

theorem subnetCount_touch (b : KBucket) (id : NodeId) (lastSeen : F64) (subnet : List UInt8) :
    (b.touch id lastSeen).subnetCount subnet = b.subnetCount subnet := by
  unfold KBucket.touch
  split
  next pos _ =>
    split
    next peer hpeer =>
      obtain ⟨hpos, rfl⟩ := List.getElem?_eq_some_iff.mp hpeer
      have hperm := (List.getElem_cons_eraseIdx_perm hpos).countP_eq
        (fun p => decide (subnetPrefix p.host = some subnet))
      unfold KBucket.subnetCount
      rw [countSubnet_append, countSubnet_singleton, Nat.add_comm, ← countSubnet_singleton]
      exact (countSubnet_append subnet [_] _).symm.trans hperm
    · rfl
  · rfl

theorem withinCaps_insert_iff (h : WithinCaps t) (peer : DhtPeer) :
    WithinCaps (t.insert peer).1 ↔ Keeps t (.insert peer) := by
  unfold RoutingTable.insert
  split
  next hself =>
    refine iff_of_true h fun i hi => ?_
    rw [hself, bucketIndex_self] at hi
    cases hi
  cases hi : t.localId.bucketIndex peer.nodeId with
  | none => exact iff_of_true h fun i hi' => nomatch hi.symm.trans hi'
  | some i =>
    have hkeeps : Keeps t (.insert peer) ↔ (((t.buckets i).position peer.nodeId).isSome →
        Room (t.setBucket i ((t.buckets i).others peer.nodeId)) i peer) := by
      refine ⟨fun hall => hall i hi, fun hroom j hj => ?_⟩
      cases hi.symm.trans hj
      exact hroom
    rw [hkeeps]
    dsimp only
    unfold KBucket.insert
    cases hpos : (t.buckets i).position peer.nodeId with
    | some pos =>
      have hothers : (t.buckets i).others peer.nodeId = ⟨(t.buckets i).peers.eraseIdx pos⟩ := by
        unfold KBucket.others KBucket.remove
        rw [hpos]
      have hreplace := fun updated =>
        withinCaps_replace_iff h (sublist_others (t.buckets i) peer.nodeId) updated
      rw [hothers] at hreplace
      rw [hothers]
      exact ((hreplace _).trans (room_congr rfl)).trans ⟨fun hroom _ => hroom, fun hall => hall rfl⟩
    | none =>
      -- The limits are looked at: a peer that is put in has room.
      refine iff_of_true ?_ fun hknown => absurd hknown (by decide)
      dsimp only
      split
      · rw [setBucket_self]
        exact h
      next hcaps =>
        split
        · refine (withinCaps_push_iff h i peer).mpr fun subnet hsubnet => ?_
          rw [hsubnet] at hcaps
          simpa [not_or] using hcaps
        · rw [setBucket_self]
          exact h

theorem withinCaps_evictAndInsert_iff (h : WithinCaps t) (peer : DhtPeer) :
    WithinCaps (t.evictAndInsert peer) ↔ Keeps t (.evictAndInsert peer) := by
  unfold RoutingTable.evictAndInsert
  split
  next hself =>
    refine iff_of_true h fun i hi => ?_
    rw [hself, bucketIndex_self] at hi
    cases hi
  cases hi : t.localId.bucketIndex peer.nodeId with
  | none => exact iff_of_true h fun i hi' => nomatch hi.symm.trans hi'
  | some i =>
    refine (withinCaps_replace_iff h (sublist_younger (t.buckets i)) peer).trans
      ⟨fun hroom j hj => ?_, fun hall => hall i hi⟩
    cases hi.symm.trans hj
    exact hroom

/-- Whether a call keeps the limits. -/
theorem withinCaps_step_iff (h : WithinCaps t) (call : Call) :
    WithinCaps (t.step call) ↔ Keeps t call := by
  cases call with
  | insert peer => exact withinCaps_insert_iff h peer
  | evictAndInsert peer => exact withinCaps_evictAndInsert_iff h peer
  | touch id lastSeen =>
    refine iff_of_true ?_ trivial
    unfold RoutingTable.step RoutingTable.touch
    dsimp only
    split
    · exact withinCaps_setBucket_of_le h fun subnet => (subnetCount_touch _ _ _ subnet).le
    · exact h
  | remove id =>
    refine iff_of_true ?_ trivial
    unfold RoutingTable.step RoutingTable.remove
    dsimp only
    split
    · exact withinCaps_setBucket_of_le h fun subnet =>
        countSubnet_le_of_sublist (sublist_others _ id) subnet
    · exact h
  | rotateStalePeers now =>
    refine iff_of_true ?_ trivial
    exact withinCaps_of_le h fun subnet i =>
      countSubnet_le_of_sublist List.filter_sublist subnet

theorem withinCaps_new (localId : NodeId) : WithinCaps (RoutingTable.new localId) := by
  intro subnet
  refine ⟨fun i => Nat.zero_le _, ?_⟩
  rw [tableSubnetCount_eq_sum]
  exact (Finset.sum_eq_zero fun i _ => rfl).trans_le (Nat.zero_le _)

/-- **Subnet limits.**  The limits hold in every state of a run exactly if every call that
updates a known peer, or puts a peer in the place of another, finds room for it. -/
theorem withinCaps_iff (localId : NodeId) (calls : List Call) :
    (∀ before, before <+: calls →
      WithinCaps (before.foldl RoutingTable.step (RoutingTable.new localId))) ↔
    ∀ before call, before ++ [call] <+: calls →
      Keeps (before.foldl RoutingTable.step (RoutingTable.new localId)) call :=
  Runs.forall_prefix_iff (J := fun _ => True) (I := WithinCaps) (C := Keeps) (fun _ _ _ => trivial)
    (fun _ call _ h => withinCaps_step_iff h call) trivial (withinCaps_new localId) calls

end Caps

section Rehomed

/-- A parser that takes no text for an IPv6 address. -/
@[reducible] def ipv4Only : Ipv6 := ⟨fun _ => none⟩

attribute [local instance] ipv4Only

/-- A node whose identifier starts with a byte, zeros after it. -/
def nodeOf (b : UInt8) : NodeId := ⟨b :: List.replicate 31 0, rfl⟩

def peerAt (b : UInt8) (host : String) : DhtPeer :=
  ⟨nodeOf b, Str.text "", Str.text host, 0, F64.zero, F64.zero, .inbound⟩

/-- Three peers of different subnets come to one bucket; then two of them announce hosts in the
subnet of the first. -/
def rehomed : List Call :=
  [.insert (peerAt 0x80 "10.0.1.1"), .insert (peerAt 0x81 "10.0.2.1"),
    .insert (peerAt 0x82 "10.0.3.1"), .insert (peerAt 0x81 "10.0.1.2"),
    .insert (peerAt 0x82 "10.0.1.3")]

theorem rehomed_over_cap :
    ¬ WithinCaps (rehomed.foldl RoutingTable.step (RoutingTable.new (nodeOf 0))) := by
  intro hcaps
  have hthree : ((rehomed.foldl RoutingTable.step
      (RoutingTable.new (nodeOf 0))).buckets 0).subnetCount (Str.text "10.0.1").bytes = 3 := by
    decide +kernel
  have htwo := (hcaps (Str.text "10.0.1").bytes).1 0
  rw [hthree] at htwo
  exact absurd htwo (by decide)

end Rehomed

end ElaraMesh.Dht
