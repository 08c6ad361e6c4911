import Macha.Metadata.Path
import Macha.Metadata.Snapshot

/-!
# Deltas between snapshots

A delta describes one snapshot as a change of another, and
`apply_metadata_delta` makes the change. It travels on the wire and in the
journal in place of the whole record. On a tree-backed snapshot the namespace
is edited by an applier given from outside.
-/

namespace Macha

structure DecodeError where
  message : String
deriving DecidableEq, Repr

/-! ## The delta -/

/-- An entry whose extent table only grew. -/
structure EntryAppend where
  size : Nat := 0
  mtimeNs : Int := 0
  ctimeNs : Int := 0
  version : Nat := 0
  baseExtents : Nat := 0
  extents : List ExtentRef := []
  content : MetadataDot := {}
deriving DecidableEq, Repr

inductive CatalogueDelta where
  | unchanged
  | clear
  | set
deriving DecidableEq, Repr

/-- Tombstones a mutation makes; never encoded. -/
structure PendingTombstones where
  atCommit : Bool := true
  retiredAtNs : Int := 0
  ids : List ObjectId := []
deriving DecidableEq, Repr

structure MetadataDelta where
  mutationSequences : VersionClock := ∅
  upsertEntries : NamespaceEntries := ∅
  eraseEntries : List ByteString := []
  eraseGarbage : List ObjectId := []
  upsertGarbage : List GarbageRef := []
  upsertNodeStatus : OrdMap NodeId PersistedNodeStatus := ∅
  upsertIdentityResets : OrdMap ByteString IdentityAssociationReset := ∅
  upsertTorrentRequests : TorrentRequests := ∅
  eraseTorrentRequests : List ByteString := []
  replaceMergeParents : Option (List Hash256) := none
  replaceConflicts : Option Conflicts := none
  canonicalGarbage : Bool := false
  appendEntries : OrdMap ByteString EntryAppend := ∅
  catalogue : CatalogueDelta := .unchanged
  catalogueRoot : Option ObjectId := none
  setLegacyClock : Option VersionClock := none
  setCatalogueDot : Option MetadataDot := none
  addTombstoneBatches : List TombstoneBatch := []
  dropTombstoneBatches : List ObjectId := []
  pendingTombstones : List PendingTombstones := []
deriving DecidableEq

/-- The ids join the one batch the commit writes. -/
def retireObjects (delta : MetadataDelta) (ids : List ObjectId) : MetadataDelta :=
  if ids = [] then delta
  else
    match delta.pendingTombstones.findIdx? (·.atCommit) with
    | some i =>
      { delta with
        pendingTombstones := delta.pendingTombstones.modify i fun group =>
          { group with ids := group.ids ++ ids } }
    | none => { delta with pendingTombstones := delta.pendingTombstones ++ [{ ids := ids }] }

theorem retireObjects_eq (delta : MetadataDelta) (ids : List ObjectId) :
    ∃ pending, retireObjects delta ids = { delta with pendingTombstones := pending } := by
  unfold retireObjects
  split
  · exact ⟨delta.pendingTombstones, rfl⟩
  · split
    · exact ⟨_, rfl⟩
    · exact ⟨_, rfl⟩

/-! ## Changes of an entry -/

section

variable (legacyFileId : ByteString → NodeId)

/-- The provenance an append with this content dot gives. -/
def appendedProvenance (path : ByteString) (before : EntryProvenance) (content : MetadataDot) :
    EntryProvenance :=
  if content.isSet then
    { before with
      content := content
      fileId := if before.fileId = 0 then legacyFileId path else before.fileId }
  else before

def applyEntryAppend (entry : FsEntry) (path : ByteString) (append : EntryAppend) :
    Except DecodeError FsEntry :=
  if entry.type ≠ .file ∨ entry.extents.length ≠ append.baseExtents then
    .error ⟨"metadata delta append base mismatch"⟩
  else
    .ok
      { entry with
        extents := entry.extents ++ append.extents
        size := append.size
        mtimeNs := append.mtimeNs
        ctimeNs := append.ctimeNs
        version := append.version
        provenance := appendedProvenance legacyFileId path entry.provenance append.content }

def extentsAppended (before after : FsEntry) : Bool :=
  before.type == .file && after.type == .file && before.mode == after.mode &&
    before.uid == after.uid && before.gid == after.gid &&
    decide (before.extents.length < after.extents.length) &&
    before.extents.isPrefixOf after.extents

/-- `static_cast<uint32_t>`. -/
def toU32 (n : Nat) : Nat := n % 2 ^ 32

/-- The append that makes `before` into `after`. -/
def entryAppendOf (before after : FsEntry) : EntryAppend :=
  { content := after.provenance.content
    size := after.size
    mtimeNs := after.mtimeNs
    ctimeNs := after.ctimeNs
    version := after.version
    baseExtents := toU32 before.extents.length
    extents := after.extents.drop before.extents.length }

/-- Whether the change can travel as an append: the extents only grew, and the
identity and the name are what applying it gives. -/
def appends (path : ByteString) (before after : FsEntry) : Bool :=
  extentsAppended before after &&
    appendedProvenance legacyFileId path before.provenance after.provenance.content ==
      after.provenance

def recordEntryChange (delta : MetadataDelta) (path : ByteString) (before : Option FsEntry)
    (after : FsEntry) : MetadataDelta :=
  match before.filter fun before => appends legacyFileId path before after with
  | some before =>
    { delta with
      upsertEntries := delta.upsertEntries.erase path
      appendEntries := delta.appendEntries.insert path (entryAppendOf before after) }
  | none =>
    { delta with
      appendEntries := delta.appendEntries.erase path
      upsertEntries := delta.upsertEntries.insert path after }

end

/-! ## Tombstones -/

def garbageIsCanonical (garbage : List GarbageRef) : Bool :=
  decide (garbage.IsChain fun a b => a.id < b.id)

/-- `std::stable_sort` by id. -/
def canonicaliseGarbage (garbage : List GarbageRef) : List GarbageRef :=
  garbage.insertionSort fun a b => a.id ≤ b.id

/-! ## Applying a delta -/

section

variable (legacyFileId : ByteString → NodeId)

/-- Edits a namespace tree, given its root, and returns the new root. -/
abbrev NamespaceDeltaApplier := ObjectId → MetadataDelta → Except DecodeError ObjectId

def applySequences (clock changes : VersionClock) : Except DecodeError VersionClock :=
  changes.toList.foldlM
    (fun clock (node, sequence) =>
      if clock.getD node 0 ≤ sequence then .ok (clock.insert node sequence)
      else .error ⟨"metadata delta sequence regressed"⟩)
    clock

def eraseEntry (entries : NamespaceEntries) (path : ByteString) :
    Except DecodeError NamespaceEntries :=
  let normalized := normalizePath path
  if normalized = rootPath then .error ⟨"metadata delta removed root"⟩
  else .ok (entries.erase normalized)

def appendEntry (entries : NamespaceEntries) (change : ByteString × EntryAppend) :
    Except DecodeError NamespaceEntries :=
  let normalized := normalizePath change.1
  match entries[normalized]? with
  | none => .error ⟨"metadata delta append base mismatch"⟩
  | some entry => do
      let grown ← applyEntryAppend legacyFileId entry normalized change.2
      return entries.insert normalized grown

/-- The edits of the map form: erases, then upserts, then appends. -/
def applyEntries (entries : NamespaceEntries) (delta : MetadataDelta) :
    Except DecodeError NamespaceEntries := do
  let entries ← delta.eraseEntries.foldlM eraseEntry entries
  let entries := delta.upsertEntries.toList.foldl
    (fun entries (path, value) => entries.insert (normalizePath path) value) entries
  delta.appendEntries.toList.foldlM (appendEntry legacyFileId) entries

/-- The namespace after a delta: on the tree form the edits are the applier's,
and only erasing the root is refused here. -/
def applyNamespace (applier : Option NamespaceDeltaApplier) (s : MetadataSnapshot)
    (delta : MetadataDelta) : Except DecodeError (Option ObjectId × NamespaceEntries) :=
  match s.namespaceRoot with
  | none => do
      let entries ← applyEntries legacyFileId s.entries delta
      return (none, entries)
  | some root =>
    match applier with
    | none =>
      .error ⟨"cannot apply a metadata delta to a tree-backed namespace without a " ++
        "namespace node store"⟩
    | some applier => do
        let root ← applier root delta
        discard <| delta.eraseEntries.foldlM eraseEntry ∅
        return (some root, s.entries)

/-- An upsert replaces the first tombstone with its id, or goes to the end. -/
def upsertGarbage (acc : List GarbageRef × OrdMap ObjectId Nat) (garbage : GarbageRef) :
    List GarbageRef × OrdMap ObjectId Nat :=
  match acc.2[garbage.id]? with
  | some i => (acc.1.set i garbage, acc.2)
  | none => (acc.1 ++ [garbage], acc.2.insert garbage.id acc.1.length)

/-- The index of the first tombstone with each id. -/
def firstIndex (garbage : List GarbageRef) : OrdMap ObjectId Nat :=
  garbage.zipIdx.foldl (fun index (g, i) => index.insertIfNew g.id i) ∅

def applyGarbage (garbage : List GarbageRef) (delta : MetadataDelta) : List GarbageRef :=
  let kept := garbage.filter fun g => !delta.eraseGarbage.contains g.id
  let edited := (delta.upsertGarbage.foldl upsertGarbage (kept, firstIndex kept)).1
  if delta.canonicalGarbage then canonicaliseGarbage edited else edited

/-- The batch goes where `std::lower_bound` finds its id. -/
def addBatch (batches : List TombstoneBatch) (batch : TombstoneBatch) :
    Except DecodeError (List TombstoneBatch) :=
  let before := batches.takeWhile fun held => decide (held.id < batch.id)
  let rest := batches.drop before.length
  match rest with
  | held :: _ =>
    if held.id = batch.id then
      if held = batch then .ok batches
      else .error ⟨"tombstone batch named twice with different contents"⟩
    else .ok (before ++ batch :: rest)
  | [] => .ok (before ++ [batch])

def applyBatches (batches : List TombstoneBatch) (delta : MetadataDelta) :
    Except DecodeError (List TombstoneBatch) :=
  delta.addTombstoneBatches.foldlM addBatch
    (batches.filter fun batch => !delta.dropTombstoneBatches.contains batch.id)

/-- A reset is taken when its epoch is later. -/
def applyReset (resets : OrdMap ByteString IdentityAssociationReset)
    (change : ByteString × IdentityAssociationReset) :
    OrdMap ByteString IdentityAssociationReset :=
  match resets[change.1]? with
  | some held =>
    if held.epoch < change.2.epoch then resets.insert change.1 change.2 else resets
  | none => resets.insert change.1 change.2

def applyCatalogue (root : Option ObjectId) (delta : MetadataDelta) :
    Except DecodeError (Option ObjectId) :=
  match delta.catalogue with
  | .unchanged => .ok root
  | .clear => .ok none
  | .set =>
    if delta.catalogueRoot.isSome then .ok delta.catalogueRoot
    else .error ⟨"metadata delta missing catalogue root"⟩

def keepsRoot (namespaceRoot : Option ObjectId) (entries : NamespaceEntries) : Bool :=
  namespaceRoot.isSome ||
    match entries[rootPath]? with
    | some root => root.isDirectory
    | none => false

def applyLegacyClock (clock : Option VersionClock) (delta : MetadataDelta) :
    Except DecodeError (Option VersionClock) :=
  match delta.setLegacyClock with
  | none => .ok clock
  | some set =>
    if clock.isSome then .error ⟨"metadata delta sets a legacy clock already set"⟩
    else .ok (some set)

def applyMetadataDelta (applier : Option NamespaceDeltaApplier) (s : MetadataSnapshot)
    (delta : MetadataDelta) : Except DecodeError MetadataSnapshot := do
  let (namespaceRoot, entries) ← applyNamespace legacyFileId applier s delta
  let legacyClock ← applyLegacyClock s.legacyClock delta
  let mutationSequences ← applySequences s.mutationSequences delta.mutationSequences
  let catalogueRoot ← applyCatalogue s.catalogueRoot delta
  let tombstoneBatches ← applyBatches s.tombstoneBatches delta
  if keepsRoot namespaceRoot entries then
    .ok
      { s with
        namespaceRoot := namespaceRoot
        entries := entries
        legacyClock := legacyClock
        mutationSequences := mutationSequences
        catalogueRoot := catalogueRoot
        tombstoneBatches := tombstoneBatches
        catalogueDot := delta.setCatalogueDot.getD s.catalogueDot
        garbage := applyGarbage s.garbage delta
        nodeStatus := delta.upsertNodeStatus.toList.foldl
          (fun status (node, value) => status.insert node value) s.nodeStatus
        identityResets := delta.upsertIdentityResets.toList.foldl applyReset s.identityResets
        torrentRequests := delta.eraseTorrentRequests.foldl (fun requests id => requests.erase id)
          (delta.upsertTorrentRequests.toList.foldl
            (fun requests (id, request) => requests.insert id request) s.torrentRequests)
        mergeParents := delta.replaceMergeParents.getD s.mergeParents
        conflicts := delta.replaceConflicts.getD s.conflicts }
  else .error ⟨"metadata delta lost root"⟩

end

end Macha
