import Macha.Metadata.Path
import Macha.Metadata.Snapshot

/-!
# The merge of two heads

`metadata_merge.cpp`, step by step: settle every path, join the two names of
one file, re-establish parents, then the values that are not entries, and last
`prune_superseded_conflicts`. `metadata_conflict_id` is a digest of the
record's encoding and is a parameter here.
-/

namespace Macha

/-! ## Clocks and sides -/

def clockCoversClock (clock other : VersionClock) : Bool :=
  other.toList.all fun (node, sequence) =>
    match clock[node]? with
    | some mine => decide (sequence ≤ mine)
    | none => false

/-- One head as the merge reads it. -/
structure Side where
  snapshot : MetadataSnapshot
  entries : NamespaceEntries

namespace Side

def clock (s : Side) : VersionClock := s.snapshot.mutationSequences

/-- Every mutation that could have written an entry without provenance. -/
def legacy (s : Side) : VersionClock :=
  s.snapshot.legacyClock.getD s.snapshot.mutationSequences

end Side

/-- Whether `viewer` has incorporated the mutation that gave `owner`'s entry its
content. -/
def contentSeen (viewer owner : Side) (entry : FsEntry) : Bool :=
  if entry.provenance.content.isSet then clockCovers viewer.clock entry.provenance.content
  else clockCoversClock viewer.clock owner.legacy

/-- The same of the entry's name. -/
def nameSeen (viewer owner : Side) (entry : FsEntry) : Bool :=
  if entry.provenance.name.isSet then clockCovers viewer.clock entry.provenance.name
  else clockCoversClock viewer.clock owner.legacy

def withoutProvenance (entry : FsEntry) : FsEntry := { entry with provenance := {} }

inductive Origin where
  | left
  | right
  | both
deriving DecidableEq, Repr

/-! ## What the merge accumulates -/

def mergeConflictKeysKept : Nat := 16

/-- The entries, conflicts and counters of the `MetadataMergeResult` under
construction. -/
structure MergeState where
  entries : NamespaceEntries := ∅
  conflicts : Conflicts := ∅
  conflictsCreated : Nat := 0
  createdKeys : List ByteString := []

section Merge

variable (metadataConflictId : MetadataConflict → ByteString)

/-- A conflict the merge found, counted unless it holds it already. -/
def emplaceConflict (conflict : MetadataConflict) (st : MergeState) : MergeState :=
  let id := metadataConflictId conflict
  if st.conflicts.contains id then st
  else
    { st with
      conflicts := st.conflicts.insert id conflict
      conflictsCreated := st.conflictsCreated + 1
      createdKeys :=
        if st.createdKeys.length < mergeConflictKeysKept then st.createdKeys ++ [conflict.key]
        else st.createdKeys }

/-- The record of a concurrent change: `installed` is the value the merge
leaves at the path, `other` the alternative it keeps. -/
def entryConflict (path : ByteString) (installed other : FsEntry) : MetadataConflict :=
  { kind := .namespaceEntry
    laterInstalled := true
    key := path
    installedDot := installed.provenance.content
    leftEntry := some installed
    rightEntry := some other }

def recordConflict (path : ByteString) (installed other : FsEntry) (st : MergeState) : MergeState :=
  emplaceConflict metadataConflictId (entryConflict path installed other) st

/-- The value `settle` returns for two differing values of one entry, and the
alternative it records beside it when the change is concurrent. -/
def settleValue (l r : Side) (a b : FsEntry) (oneFile : Bool) : FsEntry × Option FsEntry :=
  if withoutProvenance a = withoutProvenance b then
    (if a.provenance < b.provenance then b else a, none)
  else
    let leftSeen := contentSeen r l a && (oneFile || nameSeen r l a)
    let rightSeen := contentSeen l r b && (oneFile || nameSeen l r b)
    if leftSeen && !rightSeen then (b, none)
    else if rightSeen && !leftSeen then (a, none)
    -- Times and versions alone are no disagreement.
    else if sameContent a b then (if a < b then a else b, none)
    else
      let installed := laterEntry a b
      (installed, some (if installed = a then b else a))

def settle (l r : Side) (path : ByteString) (a b : FsEntry) (oneFile : Bool) (st : MergeState) :
    FsEntry × MergeState :=
  match settleValue l r a b oneFile with
  | (value, none) => (value, st)
  | (value, some other) => (value, recordConflict metadataConflictId path value other st)

/-! ## Presence -/

/-- Whether `other` has removed an entry only `owner` holds, rather than never
having seen it. -/
def removed (other owner : Side) (present : FsEntry) : Bool :=
  if present.provenance.empty then clockCoversClock other.clock owner.legacy
  else nameSeen other owner present && contentSeen other owner present

/-- Which head or heads gave a path its entry. -/
abbrev Origins := OrdMap ByteString Origin

def keepPresent (other owner : Side) (origin : Origin) (path : ByteString) (present : FsEntry)
    (acc : MergeState × Origins) : MergeState × Origins :=
  if removed other owner present then acc
  else ({ acc.1 with entries := acc.1.entries.insert path present }, acc.2.insert path origin)

def settlePath (l r : Side) (acc : MergeState × Origins) (path : ByteString) :
    MergeState × Origins :=
  match l.entries[path]?, r.entries[path]? with
  | some a, some b =>
    let (value, st) := if a = b then (a, acc.1) else settle metadataConflictId l r path a b false acc.1
    ({ st with entries := st.entries.insert path value }, acc.2.insert path .both)
  | some a, none => keepPresent r l .left path a acc
  | none, some b => keepPresent l r .right path b acc
  | none, none => acc

def mergePaths (l r : Side) : List ByteString := (l.entries ∪ r.entries).keys

def settlePaths (l r : Side) : MergeState × Origins :=
  (mergePaths l r).foldl (settlePath metadataConflictId l r) ({}, ∅)

/-! ## Identity -/

/-- The paths of each file identity, each list in path order. -/
def byIdentity (entries : NamespaceEntries) : OrdMap NodeId (List ByteString) :=
  entries.toList.foldl (fun groups (path, entry) =>
    let id := entry.provenance.fileId
    if id = 0 then groups else groups.insert id (groups.getD id [] ++ [path])) ∅

/-- Whether the left head's name of a file held at two paths is the one kept:
the newer name is the one the other head has not seen, else the later dot. -/
def keepLeft (l r : Side) (fromLeft fromRight : FsEntry) : Bool :=
  let leftNameSeen := nameSeen r l fromLeft
  let rightNameSeen := nameSeen l r fromRight
  if leftNameSeen ≠ rightNameSeen then rightNameSeen
  else decide (fromRight.provenance.name < fromLeft.provenance.name)

/-- One file at `x` on the left head and at `y` on the right one. -/
def joinNames (l r : Side) (x y : ByteString) (st : MergeState) : MergeState :=
  match st.entries[x]?, st.entries[y]? with
  | some fromLeft, some fromRight =>
    if fromLeft.type ≠ fromRight.type then st
    else
      let keep := keepLeft l r fromLeft fromRight
      let kept := if keep then x else y
      let dropped := if keep then y else x
      let (value, st) := settle metadataConflictId l r kept fromLeft fromRight true st
      let name := if keep then fromLeft.provenance.name else fromRight.provenance.name
      let merged := { value with provenance := { value.provenance with name := name } }
      { st with entries := (st.entries.erase dropped).insert kept merged }
  | _, _ => st

/-- A file at two paths is joined when each path comes from one head, and not
the same one. -/
def joinIdentity (l r : Side) (origin : Origins) (st : MergeState) (at' : List ByteString) :
    MergeState :=
  match at' with
  | [p, q] =>
    match origin[p]?, origin[q]? with
    | some .left, some .right => joinNames metadataConflictId l r p q st
    | some .right, some .left => joinNames metadataConflictId l r q p st
    | _, _ => st
  | _ => st

def joinIdentities (l r : Side) (origin : Origins) (st : MergeState) : MergeState :=
  (byIdentity st.entries).toList.foldl
    (fun st group => joinIdentity metadataConflictId l r origin st group.2) st

/-! ## Parents -/

def isDirectoryAt (entries : NamespaceEntries) (path : ByteString) : Bool :=
  match entries[path]? with
  | some entry => entry.isDirectory
  | none => false

/-- What a merge throws; each constructor is one `throw` of the source. -/
inductive MergeError where
  | lostDirectory (path : ByteString)
  | lostRoot
  | branchStillTree
deriving DecidableEq, Repr

def directoryFor (l r : Side) (path : ByteString) (st : MergeState) :
    Option (FsEntry × MergeState) :=
  match l.entries[path]?, r.entries[path]? with
  | some a, some b =>
    if a.isDirectory && b.isDirectory then some (settle metadataConflictId l r path a b false st)
    else if a.isDirectory then some (a, st)
    else if b.isDirectory then some (b, st)
    else none
  | some a, none => if a.isDirectory then some (a, st) else none
  | none, some b => if b.isDirectory then some (b, st) else none
  | none, none => none

/-- `fuel` bounds the recursion towards `"/"`; the depth of the path is enough. -/
def ensureDirectory (l r : Side) : Nat → ByteString → MergeState → Except MergeError MergeState
  | 0, path, _ => .error (.lostDirectory path)
  | fuel + 1, path, st =>
    if isDirectoryAt st.entries path then .ok st
    else do
      let found := st.entries[path]?
      let st ← if path ≠ rootPath then ensureDirectory l r fuel (parentPath path) st else .ok st
      match directoryFor metadataConflictId l r path st with
      | none => .error (.lostDirectory path)
      | some (directory, st) =>
        -- A file that won the path gives way to the directory with
        -- entries under it.
        let st := match found with
          | some entry => recordConflict metadataConflictId path directory entry st
          | none => st
        .ok { st with entries := st.entries.insert path directory }

def ensureParent (l r : Side) (st : MergeState) (path : ByteString) :
    Except MergeError MergeState :=
  if path ≠ rootPath ∧ st.entries.contains path then
    ensureDirectory metadataConflictId l r (depth path + 2) (parentPath path) st
  else .ok st

def ensureParents (l r : Side) (st : MergeState) : Except MergeError MergeState := do
  let st ← (mergePaths l r).foldlM (ensureParent metadataConflictId l r) st
  if (mergePaths l r).contains rootPath && !isDirectoryAt st.entries rootPath then
    .error .lostRoot
  else .ok st

def mergeNamespace (l r : Side) : Except MergeError MergeState :=
  let (st, origin) := settlePaths metadataConflictId l r
  ensureParents metadataConflictId l r (joinIdentities metadataConflictId l r origin st)

/-! ## The catalogue root -/

def catalogueSeen (viewer owner : Side) : Bool :=
  if owner.snapshot.catalogueDot.isSet then clockCovers viewer.clock owner.snapshot.catalogueDot
  else clockCoversClock viewer.clock owner.legacy

/-- Whether the left head's catalogue root stands where the two differ. -/
def takeLeftCatalogue (l r : Side) : Bool :=
  let leftSeen := catalogueSeen r l
  let rightSeen := catalogueSeen l r
  if leftSeen ≠ rightSeen then rightSeen
  else
    decide (r.snapshot.catalogueDot < l.snapshot.catalogueDot) ||
      (r.snapshot.catalogueDot == l.snapshot.catalogueDot &&
        decide (optionKey r.snapshot.catalogueRoot < optionKey l.snapshot.catalogueRoot))

def catalogueConflict (l r : Side) (leftHead rightHead : Hash256) : MetadataConflict :=
  let installed := if takeLeftCatalogue l r then l else r
  let other := if takeLeftCatalogue l r then r else l
  { kind := .catalogueRoot
    laterInstalled := true
    key := bytes "catalogue_root"
    leftHead := leftHead
    rightHead := rightHead
    installedDot := installed.snapshot.catalogueDot
    leftCatalogueRoot := installed.snapshot.catalogueRoot
    rightCatalogueRoot := other.snapshot.catalogueRoot }

/-- The catalogue root and its dot after the merge, and the conflicts. -/
def mergeCatalogue (l r : Side) (leftHead rightHead : Hash256) (st : MergeState) :
    Option ObjectId × MetadataDot × MergeState :=
  let leftSeen := catalogueSeen r l
  let rightSeen := catalogueSeen l r
  if l.snapshot.catalogueRoot = r.snapshot.catalogueRoot then
    let dot :=
      if leftSeen ≠ rightSeen then
        (if rightSeen then l.snapshot.catalogueDot else r.snapshot.catalogueDot)
      else max l.snapshot.catalogueDot r.snapshot.catalogueDot
    (l.snapshot.catalogueRoot, dot, st)
  else
    let st :=
      if leftSeen ≠ rightSeen then st
      else emplaceConflict metadataConflictId (catalogueConflict l r leftHead rightHead) st
    let installed := if takeLeftCatalogue l r then l else r
    (installed.snapshot.catalogueRoot, installed.snapshot.catalogueDot, st)

end Merge

/-! ## Joins of the other values -/

/-- Every key of either clock at the greater of its sequences. -/
def joinClocks (a b : VersionClock) : VersionClock :=
  b.toList.foldl (fun joined (node, sequence) =>
    joined.insert node (max (joined.getD node 0) sequence)) a

def joinLegacyClocks (l r : Side) : Option VersionClock :=
  if l.snapshot.legacyClock.isSome || r.snapshot.legacyClock.isSome then
    some (joinClocks l.legacy r.legacy)
  else none

/-- A conflict of either head that the merge does not hold yet. -/
def emplaceStanding (conflicts standing : Conflicts) : Conflicts :=
  standing.toList.foldl (fun conflicts (id, conflict) => conflicts.insertIfNew id conflict) conflicts

/-- The later retirement of each object, by id. -/
def unionGarbage (left right : List GarbageRef) : List GarbageRef :=
  let garbage : OrdMap ObjectId GarbageRef :=
    (left ++ right).foldl (fun garbage value =>
      match garbage[value.id]? with
      | none => garbage.insert value.id value
      | some found =>
        if toLex (found.retiredAtNs, found.retirementId) <
            toLex (value.retiredAtNs, value.retirementId) then
          garbage.insert value.id value
        else garbage) ∅
  garbage.toList.map Prod.snd

/-- `std::set_union` by id: of two batches with one id the first range's. -/
def setUnion : List TombstoneBatch → List TombstoneBatch → List TombstoneBatch
  | [], right => right
  | left, [] => left
  | a :: left, b :: right =>
    if a.id < b.id then a :: setUnion left (b :: right)
    else if b.id < a.id then b :: setUnion (a :: left) right
    else a :: setUnion left right

def joinNodeStatus (left right : OrdMap NodeId PersistedNodeStatus) :
    OrdMap NodeId PersistedNodeStatus :=
  (left.toList ++ right.toList).foldl (fun out (node, status) =>
    match out[node]? with
    | none => out.insert node status
    | some found =>
      if found.observedUnixMs < status.observedUnixMs ∨
          (found.observedUnixMs = status.observedUnixMs ∧ found.lt status) then
        out.insert node status
      else out) ∅

def joinIdentityResets (left right : OrdMap ByteString IdentityAssociationReset) :
    OrdMap ByteString IdentityAssociationReset :=
  (left.toList ++ right.toList).foldl (fun out (key, reset) =>
    match out[key]? with
    | none => out.insert key reset
    | some found =>
      if found.epoch < reset.epoch ∨ (found.epoch = reset.epoch ∧ found.lt reset) then
        out.insert key reset
      else out) ∅

/-! ## Pruning decided conflicts -/

/-- What `prune_superseded_conflicts` works on and counts. -/
structure PruneState where
  entries : NamespaceEntries
  conflicts : Conflicts
  pruned : Nat := 0

/-- Identical alternatives over a base, which need no decision. -/
def agreedOverBase (conflict : MetadataConflict) : Option FsEntry :=
  if conflict.laterInstalled then none
  else
    match conflict.leftEntry, conflict.rightEntry with
    | some a, some b => if sameContent a b then some (if a < b then a else b) else none
    | _, _ => none

def pruneConflict (catalogueRoot : Option ObjectId) (catalogueDot : MetadataDot)
    (st : PruneState) (id : ByteString) (conflict : MetadataConflict) : PruneState :=
  match conflict.kind with
  | .namespaceEntry =>
    if st.entries[conflict.key]? ≠ conflictInstalledEntry conflict then
      { st with conflicts := st.conflicts.erase id, pruned := st.pruned + 1 }
    else
      match agreedOverBase conflict with
      | some lesser =>
        { entries := st.entries.insert conflict.key lesser
          conflicts := st.conflicts.erase id
          pruned := st.pruned + 1 }
      | none => st
  | .catalogueRoot =>
    if catalogueRoot ≠ conflictInstalledCatalogueRoot conflict ∨
        (conflict.laterInstalled ∧ catalogueDot ≠ conflict.installedDot) then
      { st with conflicts := st.conflicts.erase id, pruned := st.pruned + 1 }
    else st

/-- `prune_superseded_conflicts` without a lookup: the namespace is the map. -/
def pruneSupersededConflicts (catalogueRoot : Option ObjectId) (catalogueDot : MetadataDot)
    (entries : NamespaceEntries) (conflicts : Conflicts) : PruneState :=
  conflicts.toList.foldl
    (fun st (id, conflict) => pruneConflict catalogueRoot catalogueDot st id conflict)
    { entries, conflicts }

structure MetadataMergeResult where
  snapshot : MetadataSnapshot
  conflictsCreated : Nat := 0
  createdKeys : List ByteString := []
  conflictsSuperseded : Nat := 0

/-- The merged snapshot: what is joined field by field, beside the catalogue and what
pruning leaves. -/
def joinedSnapshot (l r : Side) (catalogueRoot : Option ObjectId) (catalogueDot : MetadataDot)
    (pruned : PruneState) : MetadataSnapshot :=
  let baseline := l.snapshot.retentionBaselineComplete && r.snapshot.retentionBaselineComplete
  { dataReplication := max l.snapshot.dataReplication r.snapshot.dataReplication
    extentSize := max l.snapshot.extentSize r.snapshot.extentSize
    metadataWriteReplicasRequired :=
      max l.snapshot.metadataWriteReplicasRequired r.snapshot.metadataWriteReplicasRequired
    metadataParticipants :=
      if baseline then ∅ else l.snapshot.metadataParticipants ∪ r.snapshot.metadataParticipants
    retentionBaselineComplete := baseline
    mutationSequences := joinClocks l.snapshot.mutationSequences r.snapshot.mutationSequences
    legacyClock := joinLegacyClocks l r
    catalogueRoot
    catalogueDot
    entries := pruned.entries
    garbage := unionGarbage l.snapshot.garbage r.snapshot.garbage
    tombstoneBatches := setUnion l.snapshot.tombstoneBatches r.snapshot.tombstoneBatches
    nodeStatus := joinNodeStatus l.snapshot.nodeStatus r.snapshot.nodeStatus
    identityResets := joinIdentityResets l.snapshot.identityResets r.snapshot.identityResets
    conflicts := pruned.conflicts
    torrentRequests := mergeTorrentRequests ∅ l.snapshot.torrentRequests r.snapshot.torrentRequests }

section Heads

variable (metadataConflictId : MetadataConflict → ByteString)

/-- The merge of two heads already in the one order every reconciler uses. -/
def mergeOrdered (l r : Side) (leftHead rightHead : Hash256) :
    Except MergeError MetadataMergeResult := do
  let st ← mergeNamespace metadataConflictId l r
  let (catalogueRoot, catalogueDot, st) :=
    mergeCatalogue metadataConflictId l r leftHead rightHead st
  let conflicts :=
    emplaceStanding (emplaceStanding st.conflicts l.snapshot.conflicts) r.snapshot.conflicts
  let pruned := pruneSupersededConflicts catalogueRoot catalogueDot st.entries conflicts
  .ok
    { snapshot := joinedSnapshot l r catalogueRoot catalogueDot pruned
      conflictsCreated := st.conflictsCreated
      createdKeys := st.createdKeys
      conflictsSuperseded := pruned.pruned }

def mergeMetadataHeadsOver (left right : MetadataSnapshot)
    (leftEntries rightEntries : NamespaceEntries) (leftHead rightHead : Hash256) :
    Except MergeError MetadataMergeResult :=
  if leftHead = rightHead then
    .ok { snapshot := { left with namespaceRoot := none, entries := leftEntries } }
  else if rightHead < leftHead then
    mergeOrdered metadataConflictId ⟨right, rightEntries⟩ ⟨left, leftEntries⟩ rightHead leftHead
  else
    mergeOrdered metadataConflictId ⟨left, leftEntries⟩ ⟨right, rightEntries⟩ leftHead rightHead

def mergeMetadataHeads (left right : MetadataSnapshot) (leftHead rightHead : Hash256) :
    Except MergeError MetadataMergeResult :=
  if left.namespaceRoot.isSome || right.namespaceRoot.isSome then .error .branchStillTree
  else
    mergeMetadataHeadsOver metadataConflictId left right left.entries right.entries
      leftHead rightHead

end Heads

end Macha
