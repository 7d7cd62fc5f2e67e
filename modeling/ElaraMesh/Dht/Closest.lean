import ElaraMesh.Dht.WellFormed
import ElaraMesh.Lib.Draw
import ElaraMesh.Smt.Hash
import Mathlib.Data.Prod.Lex

/-!
# The replicas of a record

A record belongs to the peers nearest to the hash of its name.  Each node looks for them in its
own table, and of two peers that are equally near it takes one that it found itself.  In a
well-formed table no two peers are equally near, so how a peer was found plays no part: a peer is
a replica exactly if fewer than the wanted number of known peers are nearer, and two nodes agree
on it if they know the same peers up to it.
-/

namespace ElaraMesh.Dht

open Record (Str)
open Smt (Sha3 sha3_256 Bytes32)

/-- The distance of a node, as arrays of bytes are compared. -/
def NodeId.gap (target id : NodeId) : Bytes32 := ⟨id.distance target, id.length_distance target⟩

/-- The place of a record among the nodes. -/
def NodeId.fromRecordId [Sha3] (recordId : Str) : NodeId :=
  ⟨(sha3_256 recordId.bytes).data, (sha3_256 recordId.bytes).size_eq⟩

namespace RoutingTable

def closest (t : RoutingTable) (target : NodeId) (count : ℕ) : List DhtPeer :=
  (Draw.sortBy (fun p => target.gap p.nodeId) t.allPeers).take count

/-- The nearest peers, outbound ones first where the distance is the same. -/
def closestPreferOutbound (t : RoutingTable) (target : NodeId) (count : ℕ) : List DhtPeer :=
  (Draw.sortBy (fun p => toLex (target.gap p.nodeId, decide (p.provenance ≠ .outbound)))
    t.allPeers).take count

def closestToRecord [Sha3] (t : RoutingTable) (recordId : Str) (count : ℕ) : List DhtPeer :=
  t.closestPreferOutbound (NodeId.fromRecordId recordId) count

def ids (t : RoutingTable) : List NodeId := t.allPeers.map DhtPeer.nodeId

end RoutingTable

theorem NodeId.gap_injective (target : NodeId) : Function.Injective target.gap := by
  intro a b hgap
  refine NodeId.ext (List.ext_getElem (a.length_bytes.trans b.length_bytes.symm) fun i ha hb => ?_)
  have hi : i < target.bytes.length := by rw [target.length_bytes, ← a.length_bytes]; exact ha
  have hbyte := congrArg (·.data[i]?) hgap
  simpa [gap, distance, List.getElem?_zipWith, ha, hb, hi] using hbyte

section Replicas

variable {t : RoutingTable} (h : WellFormed t) (target : NodeId)
include h

/-- No two peers are equally near. -/
theorem keyed_gap : Draw.Keyed (fun p => target.gap p.nodeId) t.allPeers := by
  have hnodup := h.ids.map target.gap_injective
  rwa [List.map_map] at hnodup

theorem closestPreferOutbound_eq_closest (count : ℕ) :
    t.closestPreferOutbound target count = t.closest target count := by
  refine congrArg (List.take count) ?_
  have hkeyed := keyed_gap h target
  have hperm := Draw.perm_sortBy (fun p : DhtPeer =>
    toLex (target.gap p.nodeId, decide (p.provenance ≠ .outbound))) t.allPeers
  have hnear := ((Draw.pairwise_sortBy _ _).and
    (List.pairwise_map.mp (hkeyed.perm hperm.symm))).imp fun hab =>
      (Prod.Lex.monotone_fst _ _ hab.1).lt_of_ne hab.2
  -- both are the peers at increasing distances
  exact List.Perm.eq_of_pairwise (fun a b _ _ hab hba => absurd hab hba.asymm) hnear
    hkeyed.pairwise_lt (hperm.trans (Draw.perm_sortBy _ _).symm)

theorem mem_closest_iff (count : ℕ) (id : NodeId) :
    id ∈ (t.closest target count).map DhtPeer.nodeId ↔
      id ∈ t.ids ∧ (t.ids.filter fun other => target.gap other < target.gap id).length < count := by
  rw [RoutingTable.ids, List.filter_map, List.length_map, List.mem_map, List.mem_map]
  constructor
  · rintro ⟨p, hp, rfl⟩
    obtain ⟨hmem, hlt⟩ := (Draw.mem_take_sortBy (keyed_gap h target) count p).mp hp
    exact ⟨⟨p, hmem, rfl⟩, hlt⟩
  · rintro ⟨⟨p, hmem, rfl⟩, hlt⟩
    exact ⟨p, (Draw.mem_take_sortBy (keyed_gap h target) count p).mpr ⟨hmem, hlt⟩, rfl⟩

end Replicas

/-- **Nodes agree on the replicas of a record.**  The peers a node finds are the nearest ones,
whoever found them, and two nodes that know the same nodes up to a distance agree on who within
that distance is a replica. -/
theorem replicas_agree [Sha3] {t u : RoutingTable} (ht : WellFormed t) (hu : WellFormed u)
    (recordId : Str) (count : ℕ) (id : NodeId)
    (hsame : ∀ other, (NodeId.fromRecordId recordId).gap other ≤
      (NodeId.fromRecordId recordId).gap id → (other ∈ t.ids ↔ other ∈ u.ids)) :
    t.closestToRecord recordId count = t.closest (NodeId.fromRecordId recordId) count ∧
    (id ∈ (t.closestToRecord recordId count).map DhtPeer.nodeId ↔
      id ∈ (u.closestToRecord recordId count).map DhtPeer.nodeId) := by
  unfold RoutingTable.closestToRecord
  rw [closestPreferOutbound_eq_closest ht, closestPreferOutbound_eq_closest hu,
    mem_closest_iff ht, mem_closest_iff hu, hsame id le_rfl]
  generalize NodeId.fromRecordId recordId = target at hsame ⊢
  refine ⟨rfl, ?_⟩
  -- both know the same nodes that are nearer
  have hperm : (t.ids.filter fun other => target.gap other < target.gap id).Perm
      (u.ids.filter fun other => target.gap other < target.gap id) := by
    refine (List.perm_ext_iff_of_nodup (ht.ids.filter _) (hu.ids.filter _)).mpr fun other => ?_
    rw [List.mem_filter, List.mem_filter]
    exact and_congr_left fun hlt => hsame other (of_decide_eq_true hlt).le
  rw [hperm.length_eq]

section Twice

attribute [local instance] ipv4Only Smt.guardedSha3

def knowsTwo (localId : UInt8) : RoutingTable :=
  (((RoutingTable.new (nodeOf localId)).insert (peerAt 0x80 "a")).1.insert (peerAt 0x40 "b")).1

theorem wellFormed_knowsTwo (localId : UInt8) : WellFormed (knowsTwo localId) :=
  wellFormed_insert (wellFormed_insert (wellFormed_new _) _) _

/-- The two nodes keep the peers in different buckets. -/
theorem replicas_agree_knowsTwo :
    nodeOf 0x40 ∈ ((knowsTwo 0).closestToRecord (.text "r") 1).map DhtPeer.nodeId ↔
      nodeOf 0x40 ∈ ((knowsTwo 0xff).closestToRecord (.text "r") 1).map DhtPeer.nodeId := by
  have hzero : (knowsTwo 0).ids = [nodeOf 0x80, nodeOf 0x40] := by decide +kernel
  have hlast : (knowsTwo 0xff).ids = [nodeOf 0x40, nodeOf 0x80] := by decide +kernel
  refine (replicas_agree (wellFormed_knowsTwo 0) (wellFormed_knowsTwo 0xff) (.text "r") 1
    (nodeOf 0x40) fun other _ => ?_).2
  rw [hzero, hlast, List.mem_pair, List.mem_pair, or_comm]

end Twice

end ElaraMesh.Dht
