import ElaraMesh.Lib.F64
import ElaraMesh.Lib.Multimap
import ElaraMesh.Record.Record

/-!
# The index of the record graph

The hot tier keeps the identifiers of the records and their edges in memory: who refers to
whom, in both directions, the records that nobody refers to (tips), those that refer to no
record in the index (roots), and the references to records that have not arrived (orphan
edges).  A record may arrive before the records it refers to; its edges are wired when they
arrive.

Sets are walked in an order that a `SetWalk` gives, tables in one that an `Iteration` gives.

## Main definitions

* `DagIndex` — the index.
* `insert`, `insertTolerant`, `linkExternalParent`, `relinkSingleParent`, `reindexOrphans`,
  `remove`, `evictOldEpochs`, `evictFinalized`, `evictOlderThan`, `evictToCap` — its operations.
* `Call`, `step` — the calls that change an index, for runs.
-/

namespace ElaraMesh.Dag

open Record (Str ZoneId)

/-- Number of sealed epochs to keep in the hot tier. -/
def hotEpochWindow : ℕ := 3

/-- Why a record is not added. -/
inductive DagError where
  | duplicateRecord (id : Str)
  | missingParent (id : Str)
  deriving DecidableEq

/-- The graph of the records in memory. -/
structure DagIndex where
  children : Table Str (Finset Str)
  parents : Table Str (Finset Str)
  nodes : Finset Str
  timestamps : Table Str F64
  /-- From a parent that has not arrived to the children that wait for it. -/
  orphanEdges : Table Str (Finset Str)
  finalizedEpoch : Table Str ℕ
  currentEpoch : ℕ
  /-- The records without parents. -/
  rootsIdx : Finset Str
  /-- The records without children. -/
  tipsIdx : Finset Str
  nodeZone : Table Str ZoneId
  tipsPerZone : Table ZoneId (Finset Str)

namespace DagIndex

def new : DagIndex where
  children := ∅
  parents := ∅
  nodes := ∅
  timestamps := ∅
  orphanEdges := ∅
  finalizedEpoch := ∅
  currentEpoch := 0
  rootsIdx := ∅
  tipsIdx := ∅
  nodeZone := ∅
  tipsPerZone := ∅

/-- Note a tip under its zone, if that is known. -/
def tipsPerZoneInsert (s : DagIndex) (id : Str) : DagIndex :=
  { s with tipsPerZone := match s.nodeZone.lookup id with
    | some zone => s.tipsPerZone.link zone id
    | none => s.tipsPerZone }

def tipsPerZoneRemove (s : DagIndex) (id : Str) : DagIndex :=
  { s with tipsPerZone := match s.nodeZone.lookup id with
    | some zone => s.tipsPerZone.unlink zone id
    | none => s.tipsPerZone }

def addTip (s : DagIndex) (id : Str) : DagIndex :=
  tipsPerZoneInsert { s with tipsIdx := Insert.insert id s.tipsIdx } id

/-- A new record, which is a tip. -/
def addNode (s : DagIndex) (id : Str) (timestamp : F64) : DagIndex :=
  addTip { s with
    nodes := Insert.insert id s.nodes
    timestamps := s.timestamps.insert id timestamp } id

def dropTip (s : DagIndex) (id : Str) : DagIndex :=
  tipsPerZoneRemove { s with tipsIdx := s.tipsIdx.erase id } id

/-- Add the edge from a child to a parent, which is no tip any more. -/
def wire (s : DagIndex) (pid cid : Str) : DagIndex :=
  dropTip { s with children := s.children.link pid cid, parents := s.parents.link cid pid } pid

section Walk

/-- The indexes of one more record. -/
def rebuildOne (s : DagIndex) (id : Str) : DagIndex :=
  let s := if s.parents.getD id ∅ = ∅ then
    { s with rootsIdx := Insert.insert id s.rootsIdx } else s
  if s.children.getD id ∅ = ∅ then s.addTip id else s

variable [SetWalk Str]

/-- Derive the roots and the tips from the edges. -/
def rebuildIndices (s : DagIndex) : DagIndex :=
  (SetWalk.walk s.nodes).foldl rebuildOne
    { s with rootsIdx := ∅, tipsIdx := ∅, tipsPerZone := ∅ }

/-- Take the edge from `id` to one of its parents out of the children of the parent. -/
def forgetChild (id : Str) (s : DagIndex) (pid : Str) : DagIndex :=
  match s.children.lookup pid with
  | none => s
  | some children =>
    let s := { s with children := s.children.insert pid (children.erase id) }
    if children.erase id = ∅ ∧ pid ∈ s.nodes then s.addTip pid else s

/-- Take the edge from one of its children to `id` out of the parents of the child. -/
def forgetParent (id : Str) (s : DagIndex) (cid : Str) : DagIndex :=
  match s.parents.lookup cid with
  | none => s
  | some parents =>
    let s := { s with parents := s.parents.insert cid (parents.erase id) }
    if parents.erase id = ∅ ∧ cid ∈ s.nodes then
      { s with rootsIdx := Insert.insert cid s.rootsIdx } else s

def remove (s : DagIndex) (id : Str) : DagIndex :=
  let s := { s with orphanEdges := s.orphanEdges.erase id }
  if id ∉ s.nodes then s
  else
    let s := { s with
      nodes := s.nodes.erase id
      timestamps := s.timestamps.erase id
      rootsIdx := s.rootsIdx.erase id }
    let s := s.dropTip id
    let s := { s with nodeZone := s.nodeZone.erase id }
    let parentIds := s.parents.getD id ∅
    let s := { s with parents := s.parents.erase id }
    let s := (SetWalk.walk parentIds).foldl (forgetChild id) s
    let childIds := s.children.getD id ∅
    let s := { s with children := s.children.erase id }
    (SetWalk.walk childIds).foldl (forgetParent id) s

def markFinalized (s : DagIndex) (id : Str) (epoch : ℕ) : DagIndex :=
  if id ∈ s.nodes then { s with finalizedEpoch := s.finalizedEpoch.insert id epoch } else s

def setCurrentEpoch (s : DagIndex) (epoch : ℕ) : DagIndex :=
  if epoch > s.currentEpoch then { s with currentEpoch := epoch } else s

/-- Remove records and forget when they were finalized; their number is returned. -/
def evict (s : DagIndex) (toEvict : List Str) : DagIndex × ℕ :=
  (toEvict.foldl
    (fun s id =>
      let s := s.remove id
      { s with finalizedEpoch := s.finalizedEpoch.erase id }) s,
    toEvict.length)

/-- Evict the records that were finalized before the window of epochs. -/
def evictOldEpochs [Iteration] (s : DagIndex) : DagIndex × ℕ :=
  if s.currentEpoch ≤ hotEpochWindow then (s, 0)
  else
    let cutoff := s.currentEpoch - hotEpochWindow
    s.evict (((Iteration.walk s.finalizedEpoch).filter fun e => e.2 < cutoff).map Prod.fst)

/-- Evict the records that are known to be finalized, but for the last epochs. -/
def evictFinalized (s : DagIndex) (isFinalized : Str → Bool) : DagIndex × ℕ :=
  let graceCutoff := s.currentEpoch - hotEpochWindow
  s.evict ((SetWalk.walk s.nodes).filter fun id => isFinalized id &&
    match s.finalizedEpoch.lookup id with
    | some epoch => decide (epoch < graceCutoff)
    | none => true)

/-- Evict the finalized records that are older than `maxAgeSecs` at the time `now`. -/
def evictOlderThan (s : DagIndex) (now maxAgeSecs : F64) : DagIndex × ℕ :=
  let cutoff := now.sub maxAgeSecs
  s.evict ((SetWalk.walk s.nodes).filter fun id =>
    (s.timestamps.getD id F64.zero).lt cutoff && (s.finalizedEpoch.lookup id).isSome)

/-- Evict the oldest records until at most `maxRecords` are left. -/
def evictToCap [Iteration] (s : DagIndex) (maxRecords : ℕ) : DagIndex × ℕ :=
  if s.nodes.card ≤ maxRecords then (s, 0)
  else
    let excess := s.nodes.card - maxRecords
    let byTime := (Iteration.walk s.timestamps).insertionSort fun a b =>
      a.2.totalKey ≤ b.2.totalKey
    s.evict ((byTime.take excess).map Prod.fst)

def missingParent? (s : DagIndex) (parentIds : List Str) : Option Str :=
  parentIds.find? (· ∉ s.nodes)

/-- Add a record whose parents are all in the index. -/
def insert (s : DagIndex) (id : Str) (parentIds : List Str) (timestamp : F64) :
    Except DagError DagIndex :=
  if id ∈ s.nodes then .error (.duplicateRecord id)
  else
    match s.missingParent? parentIds with
    | some pid => .error (.missingParent pid)
    | none =>
      let s := parentIds.foldl (fun s pid => s.wire pid id) s
      let s := s.addNode id timestamp
      .ok (if parentIds = [] then { s with rootsIdx := Insert.insert id s.rootsIdx } else s)

def insertWithZone (s : DagIndex) (id : Str) (parentIds : List Str) (timestamp : F64)
    (zone : ZoneId) : Except DagError DagIndex :=
  if id ∈ s.nodes then .error (.duplicateRecord id)
  else
    match s.missingParent? parentIds with
    | some pid => .error (.missingParent pid)
    | none => insert { s with nodeZone := s.nodeZone.insert id zone } id parentIds timestamp

/-- Wire a parent that is in the index; note an orphan edge to one that is not, and count it. -/
def wireOrWait (id : Str) (acc : DagIndex × ℕ) (pid : Str) : DagIndex × ℕ :=
  if pid ∈ acc.1.nodes then (acc.1.wire pid id, acc.2)
  else ({ acc.1 with orphanEdges := acc.1.orphanEdges.link pid id }, acc.2 + 1)

/-- Add a record; parents that are missing are waited for, and their number is returned. -/
def insertTolerant (s : DagIndex) (id : Str) (parentIds : List Str) (timestamp : F64) :
    DagIndex × ℕ :=
  if id ∈ s.nodes then (s, 0)
  else
    let (s, missing) := parentIds.foldl (wireOrWait id) (s, 0)
    let s := s.addNode id timestamp
    (if parentIds = [] ∨ missing = parentIds.length then
      { s with rootsIdx := Insert.insert id s.rootsIdx } else s, missing)

/-- Add a record and its zone; parents that are missing are waited for. -/
def insertTolerantWithZone (s : DagIndex) (id : Str) (parentIds : List Str) (timestamp : F64)
    (zone : ZoneId) : DagIndex × ℕ :=
  if id ∈ s.nodes then (s, 0)
  else insertTolerant { s with nodeZone := s.nodeZone.insert id zone } id parentIds timestamp

def setNodeZone (s : DagIndex) (id : Str) (zone : ZoneId) : DagIndex :=
  if id ∉ s.nodes then s
  else
    let s := s.tipsPerZoneRemove id
    let s := { s with nodeZone := s.nodeZone.insert id zone }
    if id ∈ s.tipsIdx then s.tipsPerZoneInsert id else s

/-- Add the edge to a parent that is in the storage but not in the index. -/
def linkExternalParent (s : DagIndex) (childId parentId : Str) : DagIndex :=
  { s with
    parents := s.parents.link childId parentId
    rootsIdx := s.rootsIdx.erase childId
    orphanEdges := s.orphanEdges.unlink parentId childId }

/-- Wire a child that has waited for a parent, if it is still there; count it. -/
def wireWaiting (pid : Str) (acc : DagIndex × ℕ) (cid : Str) : DagIndex × ℕ :=
  if cid ∈ acc.1.nodes then
    let s := acc.1.wire pid cid
    ({ s with rootsIdx := s.rootsIdx.erase cid }, acc.2 + 1)
  else acc

/-- Wire the children that have waited for a parent; the number of the new edges is returned. -/
def relinkSingleParent (s : DagIndex) (parentId : Str) : DagIndex × ℕ :=
  match s.orphanEdges.lookup parentId with
  | some children =>
    (SetWalk.walk children).foldl (wireWaiting parentId)
      ({ s with orphanEdges := s.orphanEdges.erase parentId }, 0)
  | none => (s, 0)

/-- Wire the children of every parent that has arrived; the number of the new edges is
returned. -/
def reindexOrphans [Iteration] (s : DagIndex) : DagIndex × ℕ :=
  let known := ((Iteration.walk s.orphanEdges).filter fun e => e.1 ∈ s.nodes).map Prod.fst
  known.foldl
    (fun acc pid =>
      let relinked := acc.1.relinkSingleParent pid
      (relinked.1, acc.2 + relinked.2))
    (s, 0)

/-- Forget the children that wait for a parent; their number is returned. -/
def removeOrphanParent (s : DagIndex) (parentId : Str) : DagIndex × ℕ :=
  match s.orphanEdges.lookup parentId with
  | some children => ({ s with orphanEdges := s.orphanEdges.erase parentId }, children.card)
  | none => (s, 0)

def orphanCount (s : DagIndex) : ℕ := Table.total (fun _ children => children.card) s.orphanEdges

/-- Drop groups of orphan edges until `target` of them are gone. -/
def dropGroups (target : ℕ) : List (Str × Finset Str) → DagIndex × ℕ → DagIndex × ℕ
  | [], acc => acc
  | (pid, children) :: rest, (s, removed) =>
    if removed ≥ target then (s, removed)
    else dropGroups target rest
      ({ s with orphanEdges := s.orphanEdges.erase pid }, removed + children.card)

/-- Drop the largest groups of orphan edges until at most `maxEntries` are left. -/
def pruneOrphanEdges [Iteration] (s : DagIndex) (maxEntries : ℕ) : DagIndex × ℕ :=
  if s.orphanCount ≤ maxEntries then (s, 0)
  else
    let groups := (Iteration.walk s.orphanEdges).insertionSort fun a b => a.2.card ≥ b.2.card
    dropGroups (s.orphanCount - maxEntries) groups (s, 0)

end Walk

end DagIndex

/-- A call that may change an index. -/
inductive Call where
  | rebuildIndices
  | markFinalized (id : Str) (epoch : ℕ)
  | setCurrentEpoch (epoch : ℕ)
  | evictOldEpochs
  | evictFinalized (isFinalized : Str → Bool)
  | evictOlderThan (now maxAgeSecs : F64)
  | evictToCap (maxRecords : ℕ)
  | insert (id : Str) (parentIds : List Str) (timestamp : F64)
  | insertWithZone (id : Str) (parentIds : List Str) (timestamp : F64) (zone : ZoneId)
  | insertTolerant (id : Str) (parentIds : List Str) (timestamp : F64)
  | insertTolerantWithZone (id : Str) (parentIds : List Str) (timestamp : F64) (zone : ZoneId)
  | setNodeZone (id : Str) (zone : ZoneId)
  | linkExternalParent (childId parentId : Str)
  | relinkSingleParent (parentId : Str)
  | reindexOrphans
  | removeOrphanParent (parentId : Str)
  | pruneOrphanEdges (maxEntries : ℕ)
  | remove (id : Str)

variable [SetWalk Str] [Iteration]

/-- The index after a call; one that fails changes nothing. -/
def step (s : DagIndex) : Call → DagIndex
  | .rebuildIndices => s.rebuildIndices
  | .markFinalized id epoch => s.markFinalized id epoch
  | .setCurrentEpoch epoch => s.setCurrentEpoch epoch
  | .evictOldEpochs => s.evictOldEpochs.1
  | .evictFinalized isFinalized => (s.evictFinalized isFinalized).1
  | .evictOlderThan now maxAgeSecs => (s.evictOlderThan now maxAgeSecs).1
  | .evictToCap maxRecords => (s.evictToCap maxRecords).1
  | .insert id parentIds timestamp => (s.insert id parentIds timestamp).toOption.getD s
  | .insertWithZone id parentIds timestamp zone =>
    (s.insertWithZone id parentIds timestamp zone).toOption.getD s
  | .insertTolerant id parentIds timestamp => (s.insertTolerant id parentIds timestamp).1
  | .insertTolerantWithZone id parentIds timestamp zone =>
    (s.insertTolerantWithZone id parentIds timestamp zone).1
  | .setNodeZone id zone => s.setNodeZone id zone
  | .linkExternalParent childId parentId => s.linkExternalParent childId parentId
  | .relinkSingleParent parentId => (s.relinkSingleParent parentId).1
  | .reindexOrphans => s.reindexOrphans.1
  | .removeOrphanParent parentId => (s.removeOrphanParent parentId).1
  | .pruneOrphanEdges maxEntries => (s.pruneOrphanEdges maxEntries).1
  | .remove id => s.remove id

end ElaraMesh.Dag
