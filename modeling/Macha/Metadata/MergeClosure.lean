import Macha.Metadata.ConflictCode
import Macha.Metadata.MergeLeaves

/-!
# Every surviving entry has its directories

The three stages of a merge leave a closed namespace. Pruning then puts the
agreed values of the standing records over a base in place and looks at no
parent: the result is closed if every value such a record may put in place fits
what the merge leaves, and only then where no path has two such records.
-/

namespace Macha

open Option

section

variable (heads : MergeHeads)

/-- A record that moves what the merge leaves at its key, or what another one puts
there. -/
def MayMove (key : ByteString) (c : MetadataConflict) (w : FsEntry) : Prop :=
  MovesLeft heads key c w ∨ (AgreedAt heads key c w ∧
    ∃ c' w', AgreedAt heads key c' w' ∧ conflictInstalledEntry c = some w')

/-- What pruning makes of the namespace the stages leave. -/
structure Pruned (entries out : NamespaceEntries) : Prop where
  closed : Closed entries
  leaves : ∀ key x, entries[key]? = some x ↔ Leaves heads key x
  cases : ∀ key : ByteString,
    ((∀ c w, ¬MovesLeft heads key c w) ∧ out[key]? = entries[key]?) ∨
      (∃ c w, MovesLeft heads key c w) ∧
        ∃ c w, MayMove heads key c w ∧ out[key]? = some w

end

section

variable {heads : MergeHeads} {entries out : NamespaceEntries} (h : Pruned heads entries out)

include h

end

theorem MergeRun.pruned {heads : MergeHeads} (run : MergeRun heads)
    {metadataConflictId : MetadataConflict → ByteString}
    (hinj : Function.Injective metadataConflictId)
    (hl : WellKeyed metadataConflictId heads.left.conflicts)
    (hr : WellKeyed metadataConflictId heads.right.conflicts) :
    Pruned heads run.entries (run.result metadataConflictId).snapshot.entries where
  closed := run.closed
  leaves := run.leaves_iff
  cases key := by
    rw [run.result_entries]
    rcases agreedAt_cases (run.conflicts metadataConflictId) key run.entries[key]? with
      ⟨hall, hsame⟩ | ⟨⟨c, w, hc, hmoves⟩, c', w', v, hc', hmoves', hout, hfrom⟩
    · refine .inl ⟨fun c w hmoves => ?_, hsame⟩
      obtain ⟨hrec, hmoves⟩ := run.movesLeft_iff.1 hmoves
      refine hall c w ?_ hmoves
      rcases hrec with ⟨id, hc⟩ | ⟨id, hc⟩
      · exact ⟨id, run.conflicts_of_standing hinj hl hr (.inl hc)⟩
      · exact ⟨id, run.conflicts_of_standing hinj hl hr (.inr hc)⟩
    · refine .inr ⟨⟨c, w, run.movesLeft_of_conflicts hinj hc hmoves⟩, c', w', ?_, hout⟩
      rcases hfrom with rfl | ⟨c'', w'', v', hc'', hmoves'', hv⟩
      · exact .inl (run.movesLeft_of_conflicts hinj hc' hmoves')
      · exact .inr ⟨run.agreedAt_of_conflicts hinj hc' hmoves', c'', w'',
          run.agreedAt_of_conflicts hinj hc'' hmoves'', hmoves'.installed.trans hv⟩

namespace AgreedUnderRemoved

def root : FsEntry := { type := .directory, mode := 0o755 }

def directory : FsEntry :=
  { type := .directory, mode := 0o755, provenance := ⟨7, ⟨1, 1⟩, ⟨1, 1⟩⟩ }

def written (mtimeNs : Int) : FsEntry := { size := 10, mtimeNs := mtimeNs }

/-- Two heads once wrote the same file in `/d`, over a base without it. -/
def record : MetadataConflict :=
  { key := bytes "/d/x", leftEntry := some (written 100), rightEntry := some (written 200) }

/-- The head that still holds the record. -/
def holder : MetadataSnapshot :=
  { entries := ((∅ : NamespaceEntries).insert rootPath root).insert (bytes "/d") directory
    mutationSequences := (∅ : VersionClock).insert 1 1
    legacyClock := some ∅
    conflicts := (∅ : Conflicts).insert (conflictTokens record) record }

/-- A head that has since removed `/d`. -/
def remover : MetadataSnapshot :=
  { entries := (∅ : NamespaceEntries).insert rootPath root
    mutationSequences := ((∅ : VersionClock).insert 1 1).insert 2 1
    legacyClock := some ∅ }

/-- A head that kept `/d`. -/
def keeper : MetadataSnapshot := { remover with entries := holder.entries }

def kept : MergeHeads := ⟨holder, keeper, [1], [2], rfl, rfl, by decide, by decide⟩

end AgreedUnderRemoved

end Macha
