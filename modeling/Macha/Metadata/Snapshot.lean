import Macha.Torrent.Request

/-!
# Snapshots

What a head holds besides its namespace entries: conflicts, tombstones, node
status, identity resets and torrent requests.
-/

namespace Macha

inductive MetadataConflictKind where
  | namespaceEntry
  | catalogueRoot
deriving DecidableEq, Repr

structure MetadataConflict where
  kind : MetadataConflictKind := .namespaceEntry
  laterInstalled : Bool := false
  installedDot : MetadataDot := {}
  key : ByteString := []
  leftHead : Hash256 := Hash256.zero
  rightHead : Hash256 := Hash256.zero
  baseEntry : Option FsEntry := none
  leftEntry : Option FsEntry := none
  rightEntry : Option FsEntry := none
  baseCatalogueRoot : Option ObjectId := none
  leftCatalogueRoot : Option ObjectId := none
  rightCatalogueRoot : Option ObjectId := none
deriving DecidableEq, Repr

/-- Type, mode, ownership, size and extents equal; times and version may differ. -/
def sameContent (a b : FsEntry) : Bool :=
  a.type == b.type && a.mode == b.mode && a.uid == b.uid && a.gid == b.gid &&
    a.size == b.size && a.extents == b.extents

/-- The alternative a conflict's merge left in place. -/
def conflictInstalledEntry (conflict : MetadataConflict) : Option FsEntry :=
  if conflict.laterInstalled then conflict.leftEntry else conflict.baseEntry

def conflictInstalledCatalogueRoot (conflict : MetadataConflict) : Option ObjectId :=
  if conflict.laterInstalled then conflict.leftCatalogueRoot else conflict.baseCatalogueRoot

/-- Of two concurrent values, the one a merge leaves in place. -/
def laterEntry (a b : FsEntry) : FsEntry :=
  if a.mtimeNs ≠ b.mtimeNs then (if b.mtimeNs < a.mtimeNs then a else b)
  else if a < b then b else a

structure GarbageRef where
  id : ObjectId := Hash256.zero
  retiredAtNs : Int := 0
  retirementId : NodeId := 0
deriving DecidableEq, Repr

structure TombstoneBatch where
  id : ObjectId := Hash256.zero
  retiredAtNs : Int := 0
  count : Nat := 0
deriving DecidableEq, Repr

structure PersistedNodeStatus where
  bootId : NodeId := 0
  observedUnixMs : Nat := 0
  version : ByteString := []
  host : ByteString := []
  failureDomain : ByteString := []
  port : Nat := 0
  storageCapacity : Nat := 0
  storageUsed : Nat := 0
  cacheCapacity : Nat := 0
  cacheUsed : Nat := 0
  metadataGeneration : Nat := 0
  storageBackendsOnline : Nat := 0
  apiEndpoint : ByteString := []
  nodeName : ByteString := []
deriving DecidableEq, Repr

/-- The defaulted comparison: the fields in declaration order. -/
def PersistedNodeStatus.lt (a b : PersistedNodeStatus) : Bool :=
  let key (s : PersistedNodeStatus) :=
    toLex (toLex (s.bootId, toLex (s.observedUnixMs, toLex (s.version, toLex (s.host,
      toLex (s.failureDomain, toLex (s.port, s.storageCapacity)))))),
    toLex (s.storageUsed, toLex (s.cacheCapacity, toLex (s.cacheUsed,
      toLex (s.metadataGeneration, toLex (s.storageBackendsOnline,
        toLex (s.apiEndpoint, s.nodeName)))))))
  decide (key a < key b)

structure IdentityAssociationReset where
  host : ByteString := []
  port : Nat := 0
  staleNodeId : NodeId := 0
  epoch : Nat := 0
  resetUnixMs : Nat := 0
  resetBy : NodeId := 0
  reason : ByteString := []
deriving DecidableEq, Repr

/-- The defaulted comparison: the fields in declaration order. -/
def IdentityAssociationReset.lt (a b : IdentityAssociationReset) : Bool :=
  let key (r : IdentityAssociationReset) :=
    toLex (r.host, toLex (r.port, toLex (r.staleNodeId, toLex (r.epoch, toLex (r.resetUnixMs,
      toLex (r.resetBy, r.reason))))))
  decide (key a < key b)

/-- Conflicts by id, the hexadecimal digest of their encoding. -/
abbrev Conflicts := OrdMap ByteString MetadataConflict

structure MetadataSnapshot where
  metadataVoters : List NodeId := []
  dataReplication : Nat := 0
  extentSize : Nat := 0
  metadataWriteReplicasRequired : Nat := 0
  metadataParticipants : OrdMap NodeId Unit := ∅
  metadataBranchFloor : Hash256 := Hash256.zero
  retentionBaselineComplete : Bool := false
  mutationSequences : VersionClock := ∅
  legacyClock : Option VersionClock := none
  catalogueDot : MetadataDot := {}
  catalogueRoot : Option ObjectId := none
  namespaceRoot : Option ObjectId := none
  entries : NamespaceEntries := ∅
  garbage : List GarbageRef := []
  tombstoneBatches : List TombstoneBatch := []
  nodeStatus : OrdMap NodeId PersistedNodeStatus := ∅
  identityResets : OrdMap ByteString IdentityAssociationReset := ∅
  mergeParents : List Hash256 := []
  conflicts : Conflicts := ∅
  torrentRequests : TorrentRequests := ∅
deriving DecidableEq

end Macha
