import Macha.Filesystem.WorkingSet
import Macha.Metadata.Mutation

/-!
# Commits

The part of `mutate_delta` between the change set of a mutation and the head it
proposes: provenance is stamped, the namespace edited, the tombstones named and
the conflicts the mutation decided dropped. `resolve_conflict` is one such
mutation.
-/

namespace Macha

section

variable (legacyFileId : ByteString → NodeId)

/-- One append of a mutation, which becomes the entry's content. -/
def commitAppend (dot : MetadataDot) (entries : NamespaceEntries)
    (change : ByteString × EntryAppend) : Except DecodeError NamespaceEntries :=
  appendEntry legacyFileId entries (change.1, { change.2 with content := dot })

def commitEntries (dot : MetadataDot) (random : ByteString → NodeId) (delta : MetadataDelta)
    (entries : NamespaceEntries) : Except DecodeError NamespaceEntries :=
  let m : Mutation := ⟨dot, delta.eraseEntries, delta.upsertEntries, random⟩
  delta.appendEntries.toList.foldlM (commitAppend legacyFileId dot)
    (m.applyEntries legacyFileId entries)

variable (batchId : Int → List ObjectId → ObjectId)

/-- One group of tombstones, named as a batch where `std::lower_bound` finds its
id; `batchId` is the address of the object written. -/
def nameBatch (now : Int) (batches : List TombstoneBatch) (pending : PendingTombstones) :
    List TombstoneBatch :=
  let ids := (pending.ids.insertionSort (· ≤ ·)).dedup
  if ids = [] then batches
  else
    let retired := if pending.atCommit then now else pending.retiredAtNs
    let batch : TombstoneBatch := ⟨batchId retired ids, retired, toU32 ids.length⟩
    let before := batches.takeWhile fun held => decide (held.id < batch.id)
    match batches.drop before.length with
    | held :: rest => if held.id = batch.id then batches else before ++ batch :: held :: rest
    | [] => before ++ [batch]

/-- The head a mutation proposes over the parent `s`. -/
def commitDelta (dot : MetadataDot) (random : ByteString → NodeId) (now : Int)
    (delta : MetadataDelta) (s : MetadataSnapshot) : Except DecodeError MetadataSnapshot := do
  let entries ← commitEntries legacyFileId dot random delta s.entries
  let catalogueDot := if delta.catalogue = .unchanged then s.catalogueDot else dot
  .ok
    { s with
      entries := entries
      mergeParents := []
      legacyClock := some (s.legacyClock.getD s.mutationSequences)
      catalogueDot := catalogueDot
      mutationSequences := s.mutationSequences.insert dot.author dot.sequence
      garbage := if garbageIsCanonical s.garbage then s.garbage else canonicaliseGarbage s.garbage
      tombstoneBatches := delta.pendingTombstones.foldl (nameBatch batchId now) s.tombstoneBatches
      conflicts := s.conflicts.filter fun _ c => stands s.catalogueRoot catalogueDot entries c }

inductive ConflictChoice where
  | left
  | right
  | base
deriving DecidableEq, Repr

def MetadataConflict.chosenEntry (conflict : MetadataConflict) : ConflictChoice → Option FsEntry
  | .left => conflict.leftEntry
  | .right => conflict.rightEntry
  | .base => conflict.baseEntry

def MetadataConflict.chosenRoot (conflict : MetadataConflict) : ConflictChoice → Option ObjectId
  | .left => conflict.leftCatalogueRoot
  | .right => conflict.rightCatalogueRoot
  | .base => conflict.baseCatalogueRoot

/-- The mutation of `resolve_conflict`: the snapshot and the delta it leaves; a
decision is a change even when it keeps the value in place. -/
def decideConflict (now : Int) (id : ByteString) (choice : ConflictChoice)
    (s : MetadataSnapshot) : MetadataSnapshot × MetadataDelta :=
  match s.conflicts[id]? with
  | none => (s, {})
  | some conflict =>
    let conflicts := s.conflicts.erase id
    match conflict.kind with
    | .namespaceEntry =>
      let w : NamespaceWorkingSet := { beneath := s.entries }
      let w :=
        match conflict.chosenEntry choice with
        | some chosen =>
          w.put conflict.key { chosen with version := chosen.version + 1, ctimeNs := now }
        | none => w.erase conflict.key
      ({ s with conflicts := conflicts }, { w.delta with replaceConflicts := some conflicts })
    | .catalogueRoot =>
      let root := conflict.chosenRoot choice
      ({ s with conflicts := conflicts, catalogueRoot := root },
        { catalogue := if root.isSome then .set else .clear
          catalogueRoot := root
          replaceConflicts := some conflicts })

def resolveConflict (dot : MetadataDot) (random : ByteString → NodeId) (now : Int)
    (id : ByteString) (choice : ConflictChoice) (s : MetadataSnapshot) :
    Except DecodeError MetadataSnapshot :=
  let decided := decideConflict now id choice s
  commitDelta legacyFileId batchId dot random now decided.2 decided.1

end

/-- The entry of a commit at a path is the one the change set has there, but for
its provenance. -/
theorem withoutProvenance_stampEntryProvenance (legacyFileId : ByteString → NodeId)
    (random : NodeId) (entry : FsEntry) (path : ByteString) (prior : Option FsEntry)
    (dot : MetadataDot) :
    withoutProvenance (stampEntryProvenance legacyFileId random entry path prior dot) =
      withoutProvenance entry := by
  unfold stampEntryProvenance
  cases prior with
  | none => rfl
  | some prior =>
    dsimp only
    split
    · rfl
    · split <;> rfl

theorem commitEntries_of_no_appends {legacyFileId : ByteString → NodeId} {dot : MetadataDot}
    {random : ByteString → NodeId} {w : NamespaceWorkingSet} {entries : NamespaceEntries}
    (happends : w.delta.appendEntries = ∅)
    (h : commitEntries legacyFileId dot random w.delta w.beneath = .ok entries)
    (path : ByteString) :
    entries[path]?.map withoutProvenance = (w.get path).map withoutProvenance := by
  unfold commitEntries at h
  have hlist : (∅ : OrdMap ByteString EntryAppend).toList = [] := rfl
  rw [happends, hlist, List.foldlM_nil] at h
  cases h
  rw [Mutation.applyEntries_getElem?]
  unfold NamespaceWorkingSet.get
  cases w.delta.upsertEntries[path]? with
  | none => rfl
  | some entry =>
    simp only [Option.map_some, Option.some_or, withoutProvenance_stampEntryProvenance]

end Macha
