import Macha.Metadata.Clock
import Macha.Metadata.MergePrune

/-!
# Stamped mutations

A commit applies the change set of one mutation to its parent head. Every entry
it writes is stamped with the mutation's dot against what the parent held at
the path, and the dot is recorded in the clock.
-/

namespace Macha

open Option OrdMap

section

variable (legacyFileId : ByteString → NodeId)

/-- The identity of the file a path held before the mutation. -/
def priorFileId (path : ByteString) (prior : FsEntry) : NodeId :=
  if prior.provenance.fileId ≠ 0 then prior.provenance.fileId else legacyFileId path

/-- An entry built without an identity is the file already at the path,
changed; with nothing at the path it is a new file, with the identity
`random`. -/
def stampedFileId (random : NodeId) (entry : FsEntry) (path : ByteString)
    (prior : Option FsEntry) : NodeId :=
  if entry.provenance.fileId = 0 then
    (match prior with
    | some prior => priorFileId legacyFileId path prior
    | none => random)
  else entry.provenance.fileId

def stampEntryProvenance (random : NodeId) (entry : FsEntry) (path : ByteString)
    (prior : Option FsEntry) (dot : MetadataDot) : FsEntry :=
  let fileId := stampedFileId legacyFileId random entry path prior
  let moved : FsEntry :=
    { entry with
      provenance :=
        { fileId := fileId
          content := if entry.provenance.content.isSet then entry.provenance.content else dot
          name := dot } }
  match prior with
  | none => moved
  | some prior =>
    if fileId ≠ priorFileId legacyFileId path prior then moved
    else if withoutProvenance prior = withoutProvenance entry then
      { entry with provenance := prior.provenance }
    else
      { entry with
        provenance := { fileId := fileId, content := dot, name := prior.provenance.name } }

/-- Stamping names the entry anew, leaves it what it was, or gives it new
content under its old name. -/
theorem stampEntryProvenance_cases (random : NodeId) (entry : FsEntry) (path : ByteString)
    (prior : Option FsEntry) (dot : MetadataDot) :
    (stampEntryProvenance legacyFileId random entry path prior dot).provenance.name = dot ∨
      prior = some (stampEntryProvenance legacyFileId random entry path prior dot) ∨
      (stampEntryProvenance legacyFileId random entry path prior dot).provenance.content = dot := by
  unfold stampEntryProvenance
  cases prior with
  | none => exact .inl rfl
  | some prior =>
    dsimp only
    split
    · exact .inl rfl
    · split
      · rename_i hsame
        refine .inr (.inl ?_)
        have hfields : withoutProvenance entry = withoutProvenance prior := hsame.symm
        cases entry
        cases prior
        simp only [withoutProvenance, FsEntry.mk.injEq] at hfields
        simp [hfields]
      · exact .inr (.inr rfl)

end

/-- The change set of one mutation, as it is built: entries not yet stamped. -/
structure Mutation where
  dot : MetadataDot
  eraseEntries : List ByteString := []
  upsertEntries : NamespaceEntries := ∅
  randomNodeId : ByteString → NodeId := fun _ => 0

section

variable (legacyFileId : ByteString → NodeId)

/-- The namespace after a mutation: erases, then the stamped upserts. -/
def Mutation.applyEntries (m : Mutation) (entries : NamespaceEntries) : NamespaceEntries :=
  m.upsertEntries.toList.foldl
    (fun out (path, entry) => out.insert path
      (stampEntryProvenance legacyFileId (m.randomNodeId path) entry path entries[path]? m.dot))
    (m.eraseEntries.foldl (fun out path => out.erase path) entries)

/-- The head a commit makes of its parent: the clock of the entries without
provenance is fixed, the dot recorded, and the conflicts the mutation decided
go. -/
def Mutation.commit (m : Mutation) (s : MetadataSnapshot) : MetadataSnapshot :=
  let entries := m.applyEntries legacyFileId s.entries
  { s with
    entries := entries
    legacyClock := some (s.legacyClock.getD s.mutationSequences)
    mutationSequences := s.mutationSequences.insert m.dot.author m.dot.sequence
    mergeParents := []
    conflicts := s.conflicts.filter fun _ c => stands s.catalogueRoot s.catalogueDot entries c }

theorem Mutation.applyEntries_getElem? (m : Mutation) (entries : NamespaceEntries)
    (p : ByteString) :
    (m.applyEntries legacyFileId entries)[p]? =
      (m.upsertEntries[p]?.map fun entry => stampEntryProvenance legacyFileId (m.randomNodeId p)
        entry p entries[p]? m.dot).or (if p ∈ m.eraseEntries then none else entries[p]?) := by
  unfold Mutation.applyEntries
  rw [getElem?_foldl_toList m.upsertEntries _ (fun path entry _ =>
      some (stampEntryProvenance legacyFileId (m.randomNodeId path) entry path entries[path]? m.dot))
    (fun _ _ => getElem?_insert_self _ _ _)
    (fun _ _ _ h => getElem?_insert_of_ne _ _ h), getElem?_foldl_erase]
  cases m.upsertEntries[p]? with
  | none =>
    dsimp only
    congr
  | some entry => rfl

/-- An entry a mutation leaves is the parent's at the path, or carries its dot. -/
theorem Mutation.applyEntries_cases (m : Mutation) {entries : NamespaceEntries} {p : ByteString}
    {e : FsEntry} (h : (m.applyEntries legacyFileId entries)[p]? = some e) :
    entries[p]? = some e ∨ e.provenance.name = m.dot ∨ e.provenance.content = m.dot := by
  rw [Mutation.applyEntries_getElem?] at h
  cases hup : m.upsertEntries[p]? with
  | none =>
    rw [hup, map_none, none_or] at h
    split at h
    · simp at h
    · exact .inl h
  | some entry =>
    rw [hup, map_some, some_or, some.injEq] at h
    rcases stampEntryProvenance_cases legacyFileId (m.randomNodeId p) entry p entries[p]? m.dot
      with hname | hprior | hcontent
    · exact .inr (.inl (h ▸ hname))
    · exact .inl (h ▸ hprior)
    · exact .inr (.inr (h ▸ hcontent))

/-- The heads one author's mutations lead to, each dot beyond the clock it is
recorded in. -/
inductive FastForward (author : NodeId) (h : MetadataSnapshot) : MetadataSnapshot → Prop
  | refl : FastForward author h h
  | step {s : MetadataSnapshot} {m : Mutation} (run : FastForward author h s)
      (hauthor : m.dot.author = author) (hsequence : s.mutationSequences.getD author 0 < m.dot.sequence) :
      FastForward author h (m.commit legacyFileId s)

/-- An entry with a dot the clock does not cover. -/
def Unseen (clock : VersionClock) (e : FsEntry) : Prop :=
  (e.provenance.content.isSet ∧ clockCovers clock e.provenance.content = false) ∨
    (e.provenance.name.isSet ∧ clockCovers clock e.provenance.name = false)

/-- What holds between a head and one reached from it. -/
structure Reached (h s : MetadataSnapshot) : Prop where
  clock : clockCoversClock s.mutationSequences h.mutationSequences
  legacy : s.legacyClock.getD s.mutationSequences = h.legacyClock.getD h.mutationSequences ∨ s = h
  entries : ∀ (p : ByteString) (e : FsEntry), s.entries[p]? = some e →
    h.entries[p]? = some e ∨ Unseen h.mutationSequences e
  conflicts : ∀ (id : ByteString) (c : MetadataConflict), s.conflicts[id]? = some c →
    h.conflicts[id]? = some c
  catalogue : s.catalogueRoot = h.catalogueRoot ∧ s.catalogueDot = h.catalogueDot
  form : s.namespaceRoot = h.namespaceRoot

theorem FastForward.reached {author : NodeId} {h s : MetadataSnapshot}
    (run : FastForward legacyFileId author h s) : Reached h s := by
  induction run with
  | refl =>
    exact ⟨clockCoversClock_refl _, .inr rfl, fun _ _ he => .inl he, fun _ _ hc => hc,
      ⟨rfl, rfl⟩, rfl⟩
  | @step s m run hauthor hsequence ih =>
    have hcovers : clockCoversClock (s.mutationSequences.insert m.dot.author m.dot.sequence)
        s.mutationSequences := clockCoversClock_insert (by rw [hauthor]; exact hsequence)
    have hbeyond : h.mutationSequences.getD author 0 < m.dot.sequence :=
      Nat.lt_of_le_of_lt (getD_le_of_covers ih.clock author) hsequence
    have hdot := unseen_of_beyond hauthor hbeyond
    refine ⟨clockCoversClock_trans hcovers ih.clock, .inl ?_, ?_, ?_, ih.catalogue, ih.form⟩
    · rcases ih.legacy with hlegacy | rfl
      · exact hlegacy
      · rfl
    · intro p e he
      rcases m.applyEntries_cases legacyFileId he with hsame | hname | hcontent
      · exact ih.entries p e hsame
      · exact .inr (.inr (by rw [hname]; exact hdot))
      · exact .inr (.inl (by rw [hcontent]; exact hdot))
    · intro id c hc
      apply ih.conflicts id c
      change (s.conflicts.filter _)[id]? = some c at hc
      rw [OrdMap.getElem?_filter, filter_eq_some_iff] at hc
      exact hc.1

end

end Macha
