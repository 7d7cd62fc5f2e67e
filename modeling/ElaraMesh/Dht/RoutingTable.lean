import ElaraMesh.Record.Metadata
import Mathlib.Data.Nat.Size

/-!
# The routing table of the peer discovery

A Kademlia table: a peer belongs to the bucket of the first bit in which its identifier
differs from the local one.  A bucket holds eight peers, the one that was seen last at the
end.  A peer that is new is admitted if not too many peers of its subnet are there already;
where the bucket is full, the oldest peer is asked first, and replaced if it does not answer.

## Main definitions

* `NodeId.bucketIndex` — the bucket of a peer.
* `subnetPrefix` — the part of a host address that names its subnet.
* `KBucket`, `RoutingTable` — the buckets and the table.
* `Call`, `RoutingTable.step` — the calls that change a table, for runs.
-/

namespace ElaraMesh.Dht

open Record (Str parseDigits)

@[ext] structure NodeId where
  bytes : List UInt8
  length_bytes : bytes.length = 32

instance : DecidableEq NodeId := fun a b => decidable_of_iff (a.bytes = b.bytes) NodeId.ext_iff.symm

/-- The number of zero bits in front of the first one. -/
def leadingZeros (b : UInt8) : ℕ := 8 - Nat.size b.toNat

/-- The place of the first bit that is set, in the bytes after the first `i`. -/
def firstBit (i : ℕ) : List UInt8 → Option ℕ
  | [] => none
  | b :: rest => if b ≠ 0 then some (i * 8 + leadingZeros b) else firstBit (i + 1) rest

theorem leadingZeros_lt {b : UInt8} (hb : b ≠ 0) : leadingZeros b < 8 := by
  have hpos : 0 < Nat.size b.toNat := by
    rw [Nat.size_pos, Nat.pos_iff_ne_zero]
    exact fun h => hb (UInt8.toNat_inj.mp h)
  unfold leadingZeros
  omega

theorem firstBit_lt {i n : ℕ} {l : List UInt8} (h : firstBit i l = some n) :
    n < (i + l.length) * 8 := by
  induction l generalizing i with
  | nil => cases h
  | cons b rest ih =>
    unfold firstBit at h
    rw [List.length_cons]
    split at h
    · next hb =>
      have hzeros := leadingZeros_lt hb
      cases h
      omega
    · have hrest := ih h
      omega

namespace NodeId

/-- The XOR distance of two nodes. -/
def distance (self other : NodeId) : List UInt8 := List.zipWith (· ^^^ ·) self.bytes other.bytes

theorem length_distance (self other : NodeId) : (self.distance other).length = 32 := by
  unfold distance
  rw [List.length_zipWith, self.length_bytes, other.length_bytes, Nat.min_self]

/-- The bucket of a target; none for the node itself. -/
def bucketIndex (self target : NodeId) : Option (Fin 256) :=
  (firstBit 0 (self.distance target)).pmap (fun n hn => ⟨n, hn⟩) fun n hn => by
    have hlt := firstBit_lt hn
    rw [length_distance] at hlt
    omega

end NodeId

inductive PeerProvenance where
  | outbound
  | inbound
  deriving DecidableEq

structure DhtPeer where
  nodeId : NodeId
  identityHash : Str
  host : Str
  port : UInt16
  lastSeen : F64
  /-- When the peer was first added; kept when it is updated. -/
  firstAdded : F64
  provenance : PeerProvenance

/-- Maximum peers per bucket. -/
def k : ℕ := 8

/-- Maximum nodes from the same subnet per bucket. -/
def maxPerSubnetPerBucket : ℕ := 2

/-- Maximum nodes from the same subnet across the table. -/
def maxPerSubnetTotal : ℕ := 10

def peerMaxAgeSecs : F64 := F64.ofNat (4 * 3600)

/-- The parser of IPv6 addresses: the first three of the eight segments. -/
class Ipv6 where
  segments : List UInt8 → Option (UInt16 × UInt16 × UInt16)

/-- Is a text a number below 256, with a plus sign in front or not? -/
def isU8 (l : List UInt8) : Bool :=
  let digits := if l.head? = some 0x2b then l.tail else l
  digits ≠ [] && (parseDigits 0 digits).any (· < 256)

def hexDigits (n : UInt16) : List UInt8 := (Nat.toDigits 16 n.toNat).map fun c => c.toNat.toUInt8

def ipv6Prefix (segs : UInt16 × UInt16 × UInt16) : List UInt8 :=
  hexDigits segs.1 ++ 0x3a :: hexDigits segs.2.1 ++ 0x3a :: hexDigits segs.2.2

section Subnets

variable [Ipv6]

/-- The subnet of a host: three octets of an IPv4 address, three segments of an IPv6 address,
none for a name. -/
def subnetPrefix (host : Str) : Option (List UInt8) :=
  let parts := host.bytes.splitOn 0x2e
  if parts.length = 4 && parts.all isU8 then
    some (parts.getD 0 [] ++ 0x2e :: parts.getD 1 [] ++ 0x2e :: parts.getD 2 [])
  else
    match Ipv6.segments host.bytes with
    | some segs => some (ipv6Prefix segs)
    | none =>
      if 0x3a ∈ host.bytes then
        let stripped := (host.bytes.dropWhile (· = 0x5b)).rdropWhile (· = 0x5d)
        (Ipv6.segments stripped).map ipv6Prefix
      else none

inductive InsertResult where
  | inserted
  | pendingEviction (evictCandidate : Str)
  | rejectedSubnetLimit
  deriving DecidableEq

def countSubnet (subnet : List UInt8) (peers : List DhtPeer) : ℕ :=
  peers.countP fun p => subnetPrefix p.host = some subnet

/-- A bucket, the peer that was seen last at the end. -/
structure KBucket where
  peers : List DhtPeer

namespace KBucket

def position (b : KBucket) (id : NodeId) : Option ℕ := b.peers.findIdx? (·.nodeId = id)

def subnetCount (b : KBucket) (subnet : List UInt8) : ℕ := countSubnet subnet b.peers

/-- Insert a peer: one that is known is updated in place of the old entry. -/
def insert (b : KBucket) (peer : DhtPeer) (tableSubnetCount : ℕ) : KBucket × InsertResult :=
  match b.position peer.nodeId with
  | some pos =>
    let originalFirstAdded := (b.peers[pos]?).elim peer.firstAdded DhtPeer.firstAdded
    (⟨b.peers.eraseIdx pos ++ [{ peer with firstAdded := originalFirstAdded }]⟩, .inserted)
  | none =>
    if (subnetPrefix peer.host).any fun subnet =>
        b.subnetCount subnet ≥ maxPerSubnetPerBucket || tableSubnetCount ≥ maxPerSubnetTotal then
      (b, .rejectedSubnetLimit)
    else if b.peers.length < k then (⟨b.peers ++ [peer]⟩, .inserted)
    else (b, .pendingEviction ((b.peers.head?).elim Str.empty DhtPeer.identityHash))

/-- The peers that stay when the oldest one makes place. -/
def younger (b : KBucket) : KBucket := ⟨if b.peers.length ≥ k then b.peers.tail else b.peers⟩

def evictAndInsert (b : KBucket) (peer : DhtPeer) : KBucket := ⟨b.younger.peers ++ [peer]⟩

/-- Remove a peer, and say whether it was there. -/
def remove (b : KBucket) (id : NodeId) : KBucket × Bool :=
  match b.position id with
  | some pos => (⟨b.peers.eraseIdx pos⟩, true)
  | none => (b, false)

/-- Move a peer to the end. -/
def touch (b : KBucket) (id : NodeId) (lastSeen : F64) : KBucket :=
  match b.position id with
  | some pos =>
    match b.peers[pos]? with
    | some peer => ⟨b.peers.eraseIdx pos ++ [{ peer with lastSeen }]⟩
    | none => b
  | none => b

/-- Keep the peers that were added less than four hours ago. -/
def rotate (b : KBucket) (now : F64) : KBucket :=
  ⟨b.peers.filter fun p => (now.sub p.firstAdded).lt peerMaxAgeSecs⟩

end KBucket

structure RoutingTable where
  localId : NodeId
  buckets : Fin 256 → KBucket

namespace RoutingTable

def new (localId : NodeId) : RoutingTable := ⟨localId, fun _ => ⟨[]⟩⟩

def allPeers (t : RoutingTable) : List DhtPeer :=
  (List.finRange 256).flatMap fun i => (t.buckets i).peers

def tableSubnetCount (t : RoutingTable) (subnet : List UInt8) : ℕ := countSubnet subnet t.allPeers

def setBucket (t : RoutingTable) (i : Fin 256) (b : KBucket) : RoutingTable :=
  { t with buckets := Function.update t.buckets i b }

def insert (t : RoutingTable) (peer : DhtPeer) : RoutingTable × InsertResult :=
  if peer.nodeId = t.localId then (t, .inserted)
  else
    let subnetCount := ((subnetPrefix peer.host).map t.tableSubnetCount).getD 0
    match t.localId.bucketIndex peer.nodeId with
    | some i =>
      let r := (t.buckets i).insert peer subnetCount
      (t.setBucket i r.1, r.2)
    | none => (t, .inserted)

/-- Insert a peer after its bucket's oldest peer did not answer. -/
def evictAndInsert (t : RoutingTable) (peer : DhtPeer) : RoutingTable :=
  if peer.nodeId = t.localId then t
  else
    match t.localId.bucketIndex peer.nodeId with
    | some i => t.setBucket i ((t.buckets i).evictAndInsert peer)
    | none => t

def touch (t : RoutingTable) (id : NodeId) (lastSeen : F64) : RoutingTable :=
  match t.localId.bucketIndex id with
  | some i => t.setBucket i ((t.buckets i).touch id lastSeen)
  | none => t

/-- Remove a peer, and say whether it was there. -/
def remove (t : RoutingTable) (id : NodeId) : RoutingTable × Bool :=
  match t.localId.bucketIndex id with
  | some i =>
    let r := (t.buckets i).remove id
    (t.setBucket i r.1, r.2)
  | none => (t, false)

/-- Evict the peers that have been there for too long; their number is returned. -/
def rotateStalePeers (t : RoutingTable) (now : F64) : RoutingTable × ℕ :=
  let rotated := { t with buckets := fun i => (t.buckets i).rotate now }
  (rotated, t.allPeers.length - rotated.allPeers.length)

end RoutingTable

/-- A call that may change a table. -/
inductive Call where
  | insert (peer : DhtPeer)
  | evictAndInsert (peer : DhtPeer)
  | touch (id : NodeId) (lastSeen : F64)
  | remove (id : NodeId)
  | rotateStalePeers (now : F64)

def RoutingTable.step (t : RoutingTable) : Call → RoutingTable
  | .insert peer => (t.insert peer).1
  | .evictAndInsert peer => t.evictAndInsert peer
  | .touch id lastSeen => t.touch id lastSeen
  | .remove id => (t.remove id).1
  | .rotateStalePeers now => (t.rotateStalePeers now).1

end Subnets

end ElaraMesh.Dht
