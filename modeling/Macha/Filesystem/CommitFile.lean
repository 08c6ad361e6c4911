import Macha.Library.Run
import Macha.Metadata.Commit

/-!
# Commits of open handles

`commit_file` installs the content a write handle computed from its basis. The
basis is compared with the entry at the path through the entry's version, which
counts the changes since the path was created, so two histories of a path can
meet at one version.
-/

namespace Macha

open List Option OrdMap

/-! ## The commit -/

section

variable (legacyFileId : ByteString → NodeId)

/-- The content changed and the version says so. -/
def staleBasis (current expected : FsEntry) : Bool :=
  current.version != expected.version &&
    (current.size != expected.size || current.extents != expected.extents)

def committedEntry (now : Int) (current expected : FsEntry) (size : Nat)
    (extents : List ExtentRef) (mtimeOverride : Option Int) : FsEntry :=
  { current with
    size := size
    extents := extents
    -- an explicit time set while the handle was open is kept
    mtimeNs :=
      mtimeOverride.getD (if current.mtimeNs ≠ expected.mtimeNs then current.mtimeNs else now)
    ctimeNs := now
    version := current.version + 1 }

def commitFile (now : Int) (path : ByteString) (expected : FsEntry) (size : Nat)
    (extents : List ExtentRef) (mtimeOverride : Option Int) (staleBasisIsReplayable : Bool)
    (w : NamespaceWorkingSet) : Except FsError (NamespaceWorkingSet × FsEntry) :=
  let q := normalizePath path
  match w.get q with
  | none => .error ⟨.enoent, "removed while open"⟩
  | some current =>
    if staleBasis current expected then
      if staleBasisIsReplayable then
        .error ⟨.estale, "publication basis is stale; replay against the current entry"⟩
      else .error ⟨.eagain, "concurrent file content change"⟩
    else
      let retained := (extents.filter fun extent => !extent.hole).map (·.id)
      let retiring := (extentIds current).filter fun id => !retained.contains id
      let committed := committedEntry now current expected size extents mtimeOverride
      .ok
        ({ w with
            delta := recordEntryChange legacyFileId (retireObjects w.delta retiring) q
              (some current) committed },
          committed)

inductive CommitError where
  | refused (error : FsError)
  | undecodable (error : DecodeError)
  /-- The cluster did not take the proposed head. -/
  | notReady
deriving DecidableEq, Repr

variable (batchId : Int → List ObjectId → ObjectId)

/-- A commit of a handle over the head `s`: the new head and the entry. -/
def commitWrite (dot : MetadataDot) (random : ByteString → NodeId) (now : Int)
    (path : ByteString) (expected : FsEntry) (size : Nat) (extents : List ExtentRef)
    (mtimeOverride : Option Int) (staleBasisIsReplayable : Bool) (s : MetadataSnapshot) :
    Except CommitError (MetadataSnapshot × FsEntry) :=
  match commitFile legacyFileId now path expected size extents mtimeOverride
      staleBasisIsReplayable { beneath := s.entries } with
  | .error error => .error (.refused error)
  | .ok (w, committed) =>
    match commitDelta legacyFileId batchId dot random now w.delta s with
    | .error error => .error (.undecodable error)
    | .ok s => .ok (s, committed)

end

/-! ## A node with open handles -/

structure WriteBasis where
  path : ByteString
  base : FsEntry
deriving DecidableEq, Repr

structure FsWorld where
  snapshot : MetadataSnapshot
  handles : OrdMap Nat WriteBasis := ∅

inductive FsEvent where
  | namespaceBatches (batches : List NamespaceBatch)
  | committed (basis : WriteBasis) (before : MetadataSnapshot)
  | commitFailed (before after : MetadataSnapshot)
  /-- A merge, a head adopted from elsewhere, or a conflict decided. -/
  | headMoved (before after : MetadataSnapshot)
  | handleMoved

section

variable (legacyFileId : ByteString → NodeId) (batchId : Int → List ObjectId → ObjectId)
  (metadataConflictId : MetadataConflict → ByteString)

inductive FsStep : FsWorld → FsEvent → FsWorld → Prop
  | namespaceBatches {w : FsWorld} {dot : MetadataDot} {random : ByteString → NodeId} {now : Int}
      {batches : List NamespaceBatch} {s : MetadataSnapshot}
      (hcommit : commitDelta legacyFileId batchId dot random now
        (applyNamespaceBatches legacyFileId batches { beneath := w.snapshot.entries }).delta
        w.snapshot = .ok s) :
      FsStep w (.namespaceBatches batches) { w with snapshot := s }
  | resolve {w : FsWorld} {dot : MetadataDot} {random : ByteString → NodeId} {now : Int}
      {id : ByteString} {choice : ConflictChoice} {s : MetadataSnapshot}
      (hresolve : resolveConflict legacyFileId batchId dot random now id choice w.snapshot = .ok s) :
      FsStep w (.headMoved w.snapshot s) { w with snapshot := s }
  /-- A merge with any other head. -/
  | merge {w : FsWorld} {other : MetadataSnapshot} {head otherHead : Hash256}
      {result : MetadataMergeResult}
      (hmerge : mergeMetadataHeads metadataConflictId w.snapshot other head otherHead = .ok result) :
      FsStep w (.headMoved w.snapshot result.snapshot) { w with snapshot := result.snapshot }
  /-- A head authored elsewhere takes the place of this node's. -/
  | adopt {w : FsWorld} {s : MetadataSnapshot} :
      FsStep w (.headMoved w.snapshot s) { w with snapshot := s }
  | openHandle {w : FsWorld} {id : Nat} {path : ByteString} {entry : FsEntry}
      (hentry : w.snapshot.entries[normalizePath path]? = some entry) :
      FsStep w .handleMoved { w with handles := w.handles.insert id ⟨path, entry⟩ }
  /-- After a rename the handles beneath it are re-pointed. -/
  | repoint {w : FsWorld} {id : Nat} {path : ByteString} {basis : WriteBasis}
      (hbasis : w.handles[id]? = some basis) :
      FsStep w .handleMoved { w with handles := w.handles.insert id { basis with path := path } }
  | closeHandle {w : FsWorld} {id : Nat} :
      FsStep w .handleMoved { w with handles := w.handles.erase id }
  /-- A commit accepted; the entry is the basis of the next. -/
  | commit {w : FsWorld} {id : Nat} {basis : WriteBasis} {dot : MetadataDot}
      {random : ByteString → NodeId} {now : Int} {size : Nat} {extents : List ExtentRef}
      {mtimeOverride : Option Int} {replayable : Bool} {s : MetadataSnapshot} {entry : FsEntry}
      (hbasis : w.handles[id]? = some basis)
      (hcommit : commitWrite legacyFileId batchId dot random now basis.path basis.base size extents
        mtimeOverride replayable w.snapshot = .ok (s, entry)) :
      FsStep w (.committed basis w.snapshot)
        { snapshot := s, handles := w.handles.insert id { basis with base := entry } }
  /-- A commit that throws, in the mutation or as the head is not accepted. -/
  | commitFails {w : FsWorld} {id : Nat} {basis : WriteBasis} {dot : MetadataDot}
      {random : ByteString → NodeId} {now : Int} {size : Nat} {extents : List ExtentRef}
      {mtimeOverride : Option Int} {replayable : Bool} {error : CommitError}
      (hbasis : w.handles[id]? = some basis)
      (hfails : error = .notReady ∨ commitWrite legacyFileId batchId dot random now basis.path
        basis.base size extents mtimeOverride replayable w.snapshot = .error error) :
      FsStep w (.commitFailed w.snapshot w.snapshot) w

end

/-! ## What a commit checks -/

/-- The content of a basis: its size and its extents. -/
def SameBytes (a b : FsEntry) : Prop := a.size = b.size ∧ a.extents = b.extents

/-- A commit installs only over the content of its basis, and changes nothing
when it fails. -/
def NoLostUpdate (_ : List FsEvent) : FsEvent → Prop
  | .committed basis before =>
    ∃ entry, before.entries[normalizePath basis.path]? = some entry ∧ SameBytes entry basis.base
  | .commitFailed before after => after = before
  | _ => True

/-- An entry with the version of the basis has its content. -/
def VersionNamesContent (entries : NamespaceEntries) (basis : WriteBasis) : Prop :=
  ∀ entry, entries[normalizePath basis.path]? = some entry →
    entry.version = basis.base.version → SameBytes entry basis.base

/-- At every commit accepted, the version of the basis names its content. -/
def CommitsByVersion (_ : List FsEvent) : FsEvent → Prop
  | .committed basis before => VersionNamesContent before.entries basis
  | _ => True

theorem not_staleBasis_iff {current expected : FsEntry} : staleBasis current expected = false ↔
      current.version = expected.version ∨ SameBytes current expected := by
  unfold staleBasis SameBytes
  by_cases hv : current.version = expected.version <;> simp [hv]

section

variable {legacyFileId : ByteString → NodeId} {batchId : Int → List ObjectId → ObjectId}
  {metadataConflictId : MetadataConflict → ByteString} {dot : MetadataDot}
  {random : ByteString → NodeId} {now : Int} {path : ByteString} {expected : FsEntry} {size : Nat}
  {extents : List ExtentRef} {mtimeOverride : Option Int} {replayable : Bool}
  {s s' : MetadataSnapshot} {entry : FsEntry}

theorem commitWrite_checks
    (h : commitWrite legacyFileId batchId dot random now path expected size extents mtimeOverride
      replayable s = .ok (s', entry)) :
    ∃ current w, s.entries[normalizePath path]? = some current ∧
      staleBasis current expected = false ∧
      entry = committedEntry now current expected size extents mtimeOverride ∧
      (∃ pending, w = recordEntryChange legacyFileId { pendingTombstones := pending }
        (normalizePath path) (some current) entry) ∧
      commitDelta legacyFileId batchId dot random now w s = .ok s' := by
  unfold commitWrite at h
  split at h
  · cases h
  · next w committed hfile =>
    split at h
    · cases h
    · next s₁ hdelta =>
      cases h
      unfold commitFile at hfile
      dsimp only at hfile
      split at hfile
      · cases hfile
      · next current hget =>
        split at hfile
        · split at hfile <;> cases hfile
        · next hfresh =>
          cases hfile
          obtain ⟨pending, hpending⟩ := retireObjects_eq {} _
          rw [hpending] at hdelta
          refine ⟨current, _, ?_, by simpa using hfresh, rfl, ⟨pending, rfl⟩, hdelta⟩
          simpa [NamespaceWorkingSet.get] using hget

variable {w w' : FsWorld} {event : FsEvent} {q : ByteString}

/-- Each step loses an update exactly when it commits over an entry with the
version of the basis and other content. -/
theorem noLostUpdate_iff {past : List FsEvent}
    (hstep : FsStep legacyFileId batchId metadataConflictId w event w') :
    NoLostUpdate past event ↔ CommitsByVersion past event := by
  cases hstep with
  | commit hbasis hcommit =>
    obtain ⟨current, -, hcurrent, hfresh, -, -, -⟩ := commitWrite_checks hcommit
    constructor
    · intro hlaw entry hentry _
      obtain ⟨held, hheld, hsame⟩ := hlaw
      rw [hheld, some.injEq] at hentry
      exact hentry ▸ hsame
    · intro hnames
      refine ⟨current, hcurrent, ?_⟩
      rcases not_staleBasis_iff.1 hfresh with hversion | hsame
      · exact hnames current hcurrent hversion
      · exact hsame
  | commitFails hbasis hfails => exact iff_of_true rfl trivial
  | _ => exact Iff.rfl

/-! ## Histories in place -/

theorem commitDelta_entries {delta : MetadataDelta}
    (h : commitDelta legacyFileId batchId dot random now delta s = .ok s') :
    commitEntries legacyFileId dot random delta s.entries = .ok s'.entries := by
  unfold commitDelta at h
  cases hentries : commitEntries legacyFileId dot random delta s.entries with
  | error e => simp [hentries, bind, Except.bind] at h
  | ok entries =>
    simp only [hentries, bind, Except.bind, Except.ok.injEq] at h
    rw [← h]

theorem applyEntryAppend_entryAppendOf {before after grown : FsEntry} {p : ByteString}
    (happended : extentsAppended before after = true)
    (h : applyEntryAppend legacyFileId before p { entryAppendOf before after with content := dot } =
      .ok grown) : Descends after grown := by
  have hprefix : before.extents <+: after.extents := by
    have hparts := (Bool.and_eq_true_iff.1 happended).2
    exact isPrefixOf_iff_prefix.1 hparts
  obtain ⟨rest, hrest⟩ := hprefix
  unfold applyEntryAppend at h
  split at h
  · cases h
  · cases h
    refine .inr ⟨rfl, rfl, ?_⟩
    simp [entryAppendOf, ← hrest]

theorem commitEntries_recordEntryChange {entries entries' : NamespaceEntries} {current : FsEntry}
    {pending : List PendingTombstones} (hq : normalizePath q = q)
    (hcurrent : entries[q]? = some current)
    (h : commitEntries legacyFileId dot random (recordEntryChange legacyFileId
      { pendingTombstones := pending } q (some current) entry) entries = .ok entries') :
    (∃ held, entries'[q]? = some held ∧ Descends entry held) ∧
      ∀ p, q ≠ p → entries'[p]? = entries[p]? := by
  unfold recordEntryChange at h
  split at h
  · next before hbefore =>
    obtain ⟨hbefore, happends⟩ := filter_eq_some_iff.1 hbefore
    cases hbefore
    unfold commitEntries at h
    have hsame : ∀ p : ByteString, (Mutation.applyEntries legacyFileId
        ⟨dot, [], (∅ : NamespaceEntries).erase q, random⟩ entries)[p]? = entries[p]? := by
      intro p
      rw [Mutation.applyEntries_getElem?]
      simp
    have hlist : ((∅ : OrdMap ByteString EntryAppend).insert q
        (entryAppendOf current entry)).toList = [(q, entryAppendOf current entry)] :=
      toList_insert_empty _ _
    simp only [hlist, foldlM_cons, foldlM_nil, commitAppend, appendEntry, hq, hsame,
      hcurrent, bind, Except.bind] at h
    split at h
    · cases h
    · next grown hgrown =>
      cases hstep : applyEntryAppend legacyFileId current q
        { entryAppendOf current entry with content := dot } with
      | error e => simp [hstep] at hgrown
      | ok held =>
        simp only [hstep, pure, Except.pure, Except.ok.injEq] at hgrown h
        subst hgrown h
        refine ⟨⟨held, getElem?_insert_self _ _ _, ?_⟩, ?_⟩
        · exact applyEntryAppend_entryAppendOf (Bool.and_eq_true_iff.1 happends).1 hstep
        · intro p hp
          rw [getElem?_insert_of_ne _ _ hp, hsame]
  · unfold commitEntries at h
    have hlist : ((∅ : OrdMap ByteString EntryAppend).erase q).toList = [] := rfl
    simp only [hlist, foldlM_nil, pure, Except.pure, Except.ok.injEq] at h
    subst h
    constructor
    · refine ⟨stampEntryProvenance legacyFileId (random q) entry q entries[q]? dot, ?_, ?_⟩
      · rw [Mutation.applyEntries_getElem?]
        simp
      · have hstripped := withoutProvenance_stampEntryProvenance legacyFileId (random q) entry q
          entries[q]? dot
        simp only [withoutProvenance, FsEntry.mk.injEq] at hstripped
        exact .inr ⟨by simp [hstripped], by simp [hstripped], by simp [hstripped]⟩
    · intro p hp
      rw [Mutation.applyEntries_getElem?]
      simp [getElem?_insert_of_ne _ _ hp]

/-- The event leaves at the path an entry that is the one before, changed in
place: nothing removes it, moves another over it, or takes it from elsewhere. -/
def InPlace (q : ByteString) : FsEvent → Prop
  | .namespaceBatches batches =>
    ∀ batch ∈ batches, ∀ op ∈ batch.operations, op.2.replaces q = false
  | .headMoved before after => after.entries[q]? = before.entries[q]?
  | _ => True

/-- The head holds at the path an entry that descends from `entry`. -/
def MetadataSnapshot.HoldsFrom (s : MetadataSnapshot) (q : ByteString) (entry : FsEntry) : Prop :=
  ∃ held, s.entries[q]? = some held ∧ Descends entry held

theorem descends_of_withoutProvenance {a b : FsEntry}
    (h : withoutProvenance b = withoutProvenance a) : Descends a b := by
  simp only [withoutProvenance, FsEntry.mk.injEq] at h
  exact .inr ⟨h.2.2.2.2.2.2.2.1, h.2.2.2.2.1, h.2.2.2.2.2.2.2.2.1⟩

variable {held : FsEntry} {events : List FsEvent}

theorem commitWrite_holdsFrom (hheld : s.entries[q]? = some held)
    (h : commitWrite legacyFileId batchId dot random now path expected size extents mtimeOverride
      replayable s = .ok (s', entry)) : s'.HoldsFrom q held := by
  obtain ⟨current, delta, hcurrent, -, hentry, ⟨pending, rfl⟩, hdelta⟩ := commitWrite_checks h
  obtain ⟨hinstalled, hother⟩ := commitEntries_recordEntryChange
    (normalizePath_normalizePath path) hcurrent (commitDelta_entries hdelta)
  by_cases hq : normalizePath path = q
  · subst hq
    rw [hheld, some.injEq] at hcurrent
    obtain ⟨e, he, hdescends⟩ := hinstalled
    refine ⟨e, he, Descends.trans ?_ hdescends⟩
    left
    rw [hentry, hcurrent]
    exact Nat.lt_succ_self _
  · exact ⟨held, by rw [hother q hq, hheld], .refl _⟩

theorem FsStep.holdsFrom (hstep : FsStep legacyFileId batchId metadataConflictId w event w')
    (hevent : InPlace q event) (hheld : w.snapshot.entries[q]? = some held) :
    w'.snapshot.HoldsFrom q held := by
  have hsame : w.snapshot.HoldsFrom q held := ⟨held, hheld, .refl _⟩
  have hmoved : ∀ {after : MetadataSnapshot}, after.entries[q]? = w.snapshot.entries[q]? →
      after.HoldsFrom q held := fun h => ⟨held, h.trans hheld, .refl _⟩
  cases hstep with
  | @namespaceBatches dot random now batches s hcommit =>
    have hget : NamespaceWorkingSet.get { beneath := w.snapshot.entries } q = some held := by
      simpa [NamespaceWorkingSet.get] using hheld
    have hedits : NamespaceWorkingSet.Edits (· ≠ q) { beneath := w.snapshot.entries }
        (applyNamespaceBatches legacyFileId batches { beneath := w.snapshot.entries }) := by
      refine applyNamespaceBatches_edits (fun batch hbatch op hop p hp heq => ?_) _
      rw [heq, hevent batch hbatch op hop] at hp
      cases hp
    have hbase := hedits.sameBase
    have hentries : commitEntries legacyFileId dot random
        (applyNamespaceBatches legacyFileId batches { beneath := w.snapshot.entries }).delta
        (applyNamespaceBatches legacyFileId batches { beneath := w.snapshot.entries }).beneath =
          .ok s.entries := by
      rw [hbase.beneath]
      exact commitDelta_entries hcommit
    obtain ⟨e, he, hdescends⟩ := hedits.holdsFrom (not_not.2 rfl) hget
    have hat := commitEntries_of_no_appends hbase.appends hentries q
    rw [he, map_some] at hat
    obtain ⟨final, hfinal, hstripped⟩ := map_eq_some_iff.1 hat
    exact ⟨final, hfinal, hdescends.trans (descends_of_withoutProvenance hstripped)⟩
  | resolve hresolve => exact hmoved hevent
  | merge hmerge => exact hmoved hevent
  | adopt => exact hmoved hevent
  | openHandle hentry => exact hsame
  | repoint hbasis => exact hsame
  | closeHandle => exact hsame
  | commit hbasis hcommit => exact commitWrite_holdsFrom hheld hcommit
  | commitFails hbasis hfails => exact hsame

section

variable (run : Run (FsStep legacyFileId batchId metadataConflictId) w events w')

include run

theorem Run.holdsFrom (hheld : w.snapshot.entries[q]? = some held)
    (hevents : ∀ event ∈ events, InPlace q event) : w'.snapshot.HoldsFrom q held := by
  refine run.invariant
    (P := fun past u => (∀ event ∈ past, InPlace q event) → u.snapshot.HoldsFrom q held)
    (fun _ => ⟨held, hheld, .refl _⟩) ?_ hevents
  intro past u event v ih hstep hpast
  obtain ⟨e, he, hdescends⟩ := ih fun x hx => hpast x (mem_append_left _ hx)
  obtain ⟨e', he', hdescends'⟩ :=
    hstep.holdsFrom (hpast event (mem_append_right _ mem_cons_self)) he
  exact ⟨e', he', hdescends.trans hdescends'⟩

/-- The head holds the content of the basis under its version, as it does when
the basis is read and when a commit of it is accepted. -/
def MetadataSnapshot.HoldsBasis (s : MetadataSnapshot) (basis : WriteBasis) : Prop :=
  ∃ held, s.entries[normalizePath basis.path]? = some held ∧
    held.version = basis.base.version ∧ SameBytes held basis.base

theorem versionNamesContent_of_run {basis : WriteBasis} (hbasis : w.snapshot.HoldsBasis basis)
    (hevents : ∀ event ∈ events, InPlace (normalizePath basis.path) event) :
    VersionNamesContent w'.snapshot.entries basis := by
  obtain ⟨held, hheld, hversion, hbytes⟩ := hbasis
  obtain ⟨final, hfinal, hdescends⟩ := run.holdsFrom hheld hevents
  intro entry hentry hsame
  rw [hfinal, some.injEq] at hentry
  subst hentry
  rcases hdescends with hlater | ⟨-, hsize, hextents⟩
  · omega
  · exact ⟨hsize.trans hbytes.1, hextents.trans hbytes.2⟩

end

/-- Over every run, no commit loses an update exactly when every commit accepted
finds that the version of its basis still names its content; and it does as long
as the path is only changed in place after the basis was read. -/
theorem commits_lose_no_update_iff {w w' : FsWorld} {events : List FsEvent}
    (run : Run (FsStep legacyFileId batchId metadataConflictId) w events w') :
    (Always NoLostUpdate events ↔ Always CommitsByVersion events) ∧
      ∀ (u u' : FsWorld) (since : List FsEvent) (basis : WriteBasis),
        Run (FsStep legacyFileId batchId metadataConflictId) u since u' →
        u.snapshot.HoldsBasis basis →
        (∀ event ∈ since, InPlace (normalizePath basis.path) event) →
        VersionNamesContent u'.snapshot.entries basis := by
  refine ⟨?_, fun u u' since basis hrun hbasis hsince =>
    versionNamesContent_of_run hrun hbasis hsince⟩
  exact run.invariant (P := fun past _ => Always NoLostUpdate past ↔ Always CommitsByVersion past)
    (iff_of_true (always_nil _) (always_nil _))
    (fun past u event v ih hstep => by
      rw [always_snoc, always_snoc, ih, noLostUpdate_iff hstep])

end

namespace Recreated

/-! A file is written through one handle, removed, created again and written
through another: the second content has the version of the first. -/

def file : ByteString := bytes "/f"

def genesis : MetadataSnapshot := { entries := {(rootPath, { type := .directory })} }

def extent (id : Nat) : ExtentRef := { length := 1, id := [id] }

def outcome {ε α : Type} (x : Except ε α) (otherwise : α) : α := x.toOption.getD otherwise

theorem eq_outcome {ε α : Type} {x : Except ε α} {otherwise : α} (h : x.toOption.isSome) :
    x = .ok (outcome x otherwise) := by
  cases x with
  | error e => simp [Except.toOption] at h
  | ok s => rfl

def operations (ops : List NamespaceMutation) : List NamespaceBatch := [⟨ops.map (0, ·), false⟩]

def batch (sequence : Nat) (ops : List NamespaceMutation) (s : MetadataSnapshot) :
    Except DecodeError MetadataSnapshot :=
  commitDelta (fun _ => 1) (fun _ _ => []) ⟨1, sequence⟩ (fun _ => 2) 0
    (applyNamespaceBatches (fun _ => 1) (operations ops) { beneath := s.entries }).delta s

def write (sequence : Nat) (basis : FsEntry) (id : Nat) (s : MetadataSnapshot) :
    Except CommitError (MetadataSnapshot × FsEntry) :=
  commitWrite (fun _ => 1) (fun _ _ => []) ⟨1, sequence⟩ (fun _ => 2) 0 file basis 1 [extent id]
    none false s

def entryAt (s : MetadataSnapshot) : FsEntry := s.entries[file]?.getD {}

def created : MetadataSnapshot := outcome (batch 1 [.create file 0 0 0] genesis) genesis

def firstWrite : MetadataSnapshot × FsEntry :=
  outcome (write 2 (entryAt created) 10 created) (genesis, {})

def recreated : MetadataSnapshot :=
  outcome (batch 3 [.unlink file, .create file 0 0 0] firstWrite.1) genesis

def secondWrite : MetadataSnapshot × FsEntry :=
  outcome (write 4 (entryAt recreated) 20 recreated) (genesis, {})

def lastWrite : MetadataSnapshot × FsEntry :=
  outcome (write 5 firstWrite.2 30 secondWrite.1) (genesis, {})

abbrev Step := FsStep (fun _ => 1) (fun _ _ => []) (fun _ => [])

theorem step_batch {sequence : Nat} {ops : List NamespaceMutation} {w : FsWorld}
    {s : MetadataSnapshot} (h : batch sequence ops w.snapshot = .ok s) :
    Step w (.namespaceBatches (operations ops)) { w with snapshot := s } :=
  .namespaceBatches h

theorem step_write {sequence handle id : Nat} {basis : FsEntry} {w : FsWorld}
    {result : MetadataSnapshot × FsEntry} (hbasis : w.handles[handle]? = some ⟨file, basis⟩)
    (h : write sequence basis id w.snapshot = .ok result) :
    Step w (.committed ⟨file, basis⟩ w.snapshot)
      ⟨result.1, w.handles.insert handle ⟨file, result.2⟩⟩ :=
  .commit hbasis h

def opened : OrdMap Nat WriteBasis := (∅ : OrdMap Nat WriteBasis).insert 1 ⟨file, entryAt created⟩

def written : FsWorld := ⟨firstWrite.1, opened.insert 1 ⟨file, firstWrite.2⟩⟩

def firstEvents : List FsEvent :=
  [.namespaceBatches (operations [.create file 0 0 0]), .handleMoved,
    .committed ⟨file, entryAt created⟩ created]

theorem first_run : Run Step ⟨genesis, ∅⟩ firstEvents written := by
  have hcreated : batch 1 [.create file 0 0 0] genesis = .ok created :=
    eq_outcome (by decide +kernel)
  have hfirst : write 2 (entryAt created) 10 created = .ok firstWrite :=
    eq_outcome (by decide +kernel)
  have hcreate : Step ⟨genesis, ∅⟩ (.namespaceBatches (operations [.create file 0 0 0]))
      ⟨created, ∅⟩ := step_batch hcreated
  have hopen : Step ⟨created, ∅⟩ .handleMoved ⟨created, opened⟩ := .openHandle (by decide +kernel)
  have hwrite : Step ⟨created, opened⟩ (.committed ⟨file, entryAt created⟩ created) written :=
    step_write (getElem?_insert_self _ _ _) hfirst
  exact ((Run.refl.snoc hcreate).snoc hopen).snoc hwrite

def reopened : OrdMap Nat WriteBasis := written.handles.insert 2 ⟨file, entryAt recreated⟩

def rewritten : FsWorld := ⟨secondWrite.1, reopened.insert 2 ⟨file, secondWrite.2⟩⟩

theorem last_run : ∃ events w, Run Step ⟨genesis, ∅⟩ events w ∧
      .committed ⟨file, firstWrite.2⟩ secondWrite.1 ∈ events := by
  have hrecreated : batch 3 [.unlink file, .create file 0 0 0] firstWrite.1 = .ok recreated :=
    eq_outcome (by decide +kernel)
  have hsecond : write 4 (entryAt recreated) 20 recreated = .ok secondWrite :=
    eq_outcome (by decide +kernel)
  have hlast : write 5 firstWrite.2 30 secondWrite.1 = .ok lastWrite :=
    eq_outcome (by decide +kernel)
  have hbatch : Step written (.namespaceBatches (operations [.unlink file, .create file 0 0 0]))
      ⟨recreated, written.handles⟩ := step_batch hrecreated
  have hopen : Step ⟨recreated, written.handles⟩ .handleMoved ⟨recreated, reopened⟩ :=
    .openHandle (by decide +kernel)
  have hwrite : Step ⟨recreated, reopened⟩ (.committed ⟨file, entryAt recreated⟩ recreated)
      rewritten := step_write (getElem?_insert_self _ _ _) hsecond
  have hagain : Step rewritten (.committed ⟨file, firstWrite.2⟩ secondWrite.1)
      ⟨lastWrite.1, rewritten.handles.insert 1 ⟨file, lastWrite.2⟩⟩ :=
    step_write (by decide +kernel) hlast
  exact ⟨_, _, (((first_run.snoc hbatch).snoc hopen).snoc hwrite).snoc hagain,
    mem_append_right _ mem_cons_self⟩

/-- The second content is overwritten by a handle that never saw it. -/
theorem commit_overwrites_unseen_content :
    ∃ events w, Run Step ⟨genesis, ∅⟩ events w ∧ ¬ Always NoLostUpdate events := by
  obtain ⟨events, w, run, hmem⟩ := last_run
  refine ⟨events, w, run, ?_⟩
  intro hlaw
  obtain ⟨past, rest, rfl⟩ := append_of_mem hmem
  obtain ⟨entry, hentry, hbytes⟩ :=
    hlaw past (.committed ⟨file, firstWrite.2⟩ secondWrite.1) ⟨rest, by simp⟩
  have hsecond : secondWrite.1.entries[normalizePath file]?.map (·.extents) =
      some [extent 20] := by decide +kernel
  have hfirst : firstWrite.2.extents = [extent 10] := by decide +kernel
  rw [hentry, map_some, hbytes.2, hfirst] at hsecond
  exact absurd hsecond (by decide)

/-- After a change of mode only, the version still names the content. -/
theorem commit_after_chmod :
    (Always NoLostUpdate firstEvents ↔ Always CommitsByVersion firstEvents) ∧
      VersionNamesContent (outcome (batch 3 [.chmod file 0] firstWrite.1) genesis).entries
        ⟨file, firstWrite.2⟩ := by
  have hchmod : batch 3 [.chmod file 0] firstWrite.1 =
      .ok (outcome (batch 3 [.chmod file 0] firstWrite.1) genesis) :=
    eq_outcome (by decide +kernel)
  have hbasis : written.snapshot.HoldsBasis ⟨file, firstWrite.2⟩ :=
    ⟨entryAt firstWrite.1, by decide +kernel, by decide +kernel, by decide +kernel,
      by decide +kernel⟩
  obtain ⟨hiff, hsince⟩ := commits_lose_no_update_iff first_run
  refine ⟨hiff, hsince written _ _ _ (Run.refl.snoc (step_batch hchmod)) hbasis ?_⟩
  intro event hevent
  rw [nil_append, mem_singleton] at hevent
  subst hevent
  intro b hb op hop
  rw [operations, mem_singleton] at hb
  subst hb
  rw [map_singleton, mem_singleton] at hop
  rw [hop]
  rfl

end Recreated

end Macha
