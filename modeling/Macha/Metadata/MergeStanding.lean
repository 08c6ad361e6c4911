import Macha.Metadata.MergeConcurrent

/-!
# What a merge does to a standing conflict

A record stays while the value its merge installed is the one in place. The
merge of two heads may itself replace that value, by a value whose author never
saw the conflict; the record then goes with the alternative it keeps.
-/

namespace Macha

open Option OrdMap

/-- A namespace conflict of a head that holds the value it installed. -/
structure StandingConflict (s : MetadataSnapshot) (id : ByteString) (c : MetadataConflict) :
    Prop where
  held : s.conflicts[id]? = some c
  kind : c.kind = .namespaceEntry
  installed : s.entries[c.key]? = conflictInstalledEntry c

/-- What the author of a decision has seen: the installed entry or, where nothing
was installed, every alternative. -/
def DecidedOn (c : MetadataConflict) (a : FsEntry) : Prop :=
  conflictInstalledEntry c = some a ∨
    (conflictInstalledEntry c = none ∧ (c.leftEntry = some a ∨ c.rightEntry = some a))

/-- The other head holds something else at the key, by a mutation whose author
had incorporated the conflict. -/
structure Incorporated (mine theirs : MetadataSnapshot) (c : MetadataConflict) : Prop where
  differs : theirs.entries[c.key]? ≠ conflictInstalledEntry c
  some_entry : ∃ a, DecidedOn c a
  seen : ∀ a, DecidedOn c a →
    contentSeen (sideOf theirs) (sideOf mine) a ∧ nameSeen (sideOf theirs) (sideOf mine) a

section

variable (heads : MergeHeads)

/-- No other record of the heads moves the value left at the key of this one. -/
def Alone (c : MetadataConflict) : Prop :=
  ∀ c' w, MovesLeft heads c.key c' w → c' = c

/-- The merge leaves what the record installed, and its alternatives do not agree
over a base. -/
structure Persists (c : MetadataConflict) : Prop where
  undecided : agreedOverBase c = none
  stands : ∀ x, conflictInstalledEntry c = some x ↔ Leaves heads c.key x
  alone : Alone heads c

end

theorem MergeRun.standing_iff {metadataConflictId : MetadataConflict → ByteString}
    (hinj : Function.Injective metadataConflictId) {heads : MergeHeads} (run : MergeRun heads)
    (hkl : WellKeyed metadataConflictId heads.left.conflicts)
    (hkr : WellKeyed metadataConflictId heads.right.conflicts) {id : ByteString}
    {c : MetadataConflict} (hkind : c.kind = .namespaceEntry)
    (hc : heads.left.conflicts[id]? = some c ∨ heads.right.conflicts[id]? = some c)
    (halone : Alone heads c) :
    (run.result metadataConflictId).snapshot.conflicts[id]? = some c ↔ Persists heads c := by
  have hkeyed := run.conflicts_wellKeyed hinj hkl hkr
  have hunpruned := run.conflicts_of_standing hinj hkl hkr hc
  refine (mem_prune_conflicts _ _ hunpruned fun id' c' w hc' hne hmoves => ?_).trans ?_
  · have heq := halone c' w (run.movesLeft_of_conflicts hinj ⟨id', hc'⟩ hmoves)
    exact hne (by rw [hkeyed id' c' hc', heq, ← hkeyed id c hunpruned])
  · simp only [remains, stands, hkind, Bool.and_eq_true, decide_eq_true_eq, reduceCtorEq,
      decide_false, Bool.false_or, isNone_iff_eq_none]
    constructor
    · rintro ⟨hlive, hnone⟩
      exact ⟨hnone, fun x => hlive ▸ run.leaves_iff c.key x, halone⟩
    · intro hpersists
      exact ⟨Option.ext fun x => (run.leaves_iff c.key x).trans (hpersists.stands x).symm,
        hpersists.undecided⟩

/-- A merge drops a standing conflict only for a head that incorporated it where it
has, or where the record persists; where no other record stands over its value, only
there. -/
theorem mergeMetadataHeads_standing_iff (metadataConflictId : MetadataConflict → ByteString)
    (hinj : Function.Injective metadataConflictId) (heads : MergeHeads)
    (hkeyl : WellKeyed metadataConflictId heads.left.conflicts)
    (hkeyr : WellKeyed metadataConflictId heads.right.conflicts)
    (hne : heads.leftHead ≠ heads.rightHead) :
    ∃ result, mergeMetadataHeads metadataConflictId heads.left heads.right heads.leftHead
        heads.rightHead = .ok result ∧
      ∀ mine theirs, (mine = heads.left ∧ theirs = heads.right ∨
          mine = heads.right ∧ theirs = heads.left) →
        ∀ id c, StandingConflict mine id c →
          (Incorporated mine theirs c ∨ Persists heads c →
            result.snapshot.conflicts[id]? ≠ some c → Incorporated mine theirs c) ∧
          (Alone heads c →
            (result.snapshot.conflicts[id]? ≠ some c → Incorporated mine theirs c) →
              Incorporated mine theirs c ∨ Persists heads c) := by
  obtain ⟨run, hrun⟩ := MergeHeads.exists_run metadataConflictId hne
  refine ⟨_, hrun, fun mine theirs hwhich id c hc => ?_⟩
  have hheld : heads.left.conflicts[id]? = some c ∨ heads.right.conflicts[id]? = some c := by
    rcases hwhich with ⟨rfl, -⟩ | ⟨rfl, -⟩
    · exact .inl hc.held
    · exact .inr hc.held
  have hkept := run.standing_iff hinj hkeyl hkeyr hc.kind hheld
  constructor
  · rintro (hinc | hpersists) hdropped
    · exact hinc
    · exact (hdropped ((hkept hpersists.alone).2 hpersists)).elim
  · intro halone hclaim
    by_contra hneither
    rw [not_or] at hneither
    exact hneither.1 (hclaim fun hin => hneither.2 ((hkept halone).1 hin))

/-! ## A third edit -/

namespace ThirdEdit

def root : FsEntry := { type := .directory, mode := 0o755 }

def content (size : Nat) (mtimeNs : Int) (dot : MetadataDot) : FsEntry :=
  { size := size, mtimeNs := mtimeNs, provenance := ⟨9, dot, ⟨1, 1⟩⟩ }

/-- Authors 1 and 2 changed `/f` concurrently; the later change stands. -/
def record : MetadataConflict :=
  entryConflict (bytes "/f") (content 20 200 ⟨2, 1⟩) (content 10 100 ⟨1, 2⟩)

def reconciled : MetadataSnapshot :=
  { entries := ((∅ : NamespaceEntries).insert rootPath root).insert (bytes "/f")
      (content 20 200 ⟨2, 1⟩)
    mutationSequences := ((∅ : VersionClock).insert 1 2).insert 2 1
    legacyClock := some ∅
    conflicts := (∅ : Conflicts).insert (conflictTokens record) record }

/-- Author 3 knows neither of the two changes. -/
def third (mtimeNs : Int) : MetadataSnapshot :=
  { entries := ((∅ : NamespaceEntries).insert rootPath root).insert (bytes "/f")
      (content 30 mtimeNs ⟨3, 1⟩)
    mutationSequences := ((∅ : VersionClock).insert 1 1).insert 3 1
    legacyClock := some ∅ }

theorem record_stands : StandingConflict reconciled (conflictTokens record) record :=
  ⟨getElem?_insert_self _ _ _, rfl, by decide⟩

/-- A later concurrent value discards the record, and author 1's change with
it. -/
theorem merge_discards_the_record : StandingConflict reconciled (conflictTokens record) record ∧
      CoversOwnDots reconciled ∧ CoversOwnDots (third 300) ∧
      clockCovers (third 300).mutationSequences (content 20 200 ⟨2, 1⟩).provenance.content = false ∧
      (mergeMetadataHeads conflictTokens reconciled (third 300) [1] [2]).toOption.map
        (fun result => (decide (result.snapshot.conflicts[conflictTokens record]? = some record),
          decide (HoldsContent result.snapshot (bytes "/f") (content 10 100 ⟨1, 2⟩)))) =
        some (false, false) :=
  ⟨record_stands, by decide, by decide, by decide, by decide +kernel⟩

/-- An earlier concurrent value leaves the record in place. -/
theorem merge_keeps_the_record :
    ∃ result, mergeMetadataHeads conflictTokens reconciled (third 150) [1] [2] = .ok result ∧
      (result.snapshot.conflicts[conflictTokens record]? ≠ some record →
        Incorporated reconciled (third 150) record) := by
  have hempty : (third 150).conflicts = ∅ := rfl
  let heads : MergeHeads := ⟨reconciled, third 150, [1], [2], rfl, rfl, by decide, by decide⟩
  obtain ⟨result, hrun, hall⟩ := mergeMetadataHeads_standing_iff conflictTokens
    conflictTokens_injective heads
    (fun id c hc => by rw [(getElem?_insert_empty.1 hc).2, (getElem?_insert_empty.1 hc).1])
    (fun id c hc => by simp [heads, hempty] at hc) (by decide)
  refine ⟨result, hrun, (hall _ _ (.inl ⟨rfl, rfl⟩) _ _ record_stands).1 (.inr ⟨rfl, ?_, ?_⟩)⟩
  · have hsettled : (settleValue (sideOf reconciled) (sideOf (third 150)) (content 20 200 ⟨2, 1⟩)
        (content 30 150 ⟨3, 1⟩) false).1 = content 20 200 ⟨2, 1⟩ := by decide
    have hgiven : Given heads record.key (content 20 200 ⟨2, 1⟩) :=
      hsettled ▸ .inl (.both (by decide) (by decide))
    have hneeded : ¬NeededBelow heads record.key := by
      rintro ⟨q, x, hgiven, n, hup⟩
      have hroot : parentPath q = rootPath := by
        have hall : (∀ y ∈ reconciled.entries.toList, parentPath y.1 = rootPath) ∧
            ∀ y ∈ (third 150).entries.toList, parentPath y.1 = rootPath := by decide
        rcases hgiven.imp Gives.held Gives.held with hheld | hheld <;>
          obtain ⟨y, hy⟩ := isSome_iff_exists.1 hheld
        · exact hall.1 (q, y) ((OrdMap.mem_toList _ _ _).2 hy)
        · exact hall.2 (q, y) ((OrdMap.mem_toList _ _ _).2 hy)
      rw [hroot, Function.iterate_fixed parentPath_rootPath] at hup
      exact absurd hup (by decide)
    have hleft : Leaves heads record.key (content 20 200 ⟨2, 1⟩) :=
      .inl ⟨hgiven, .inr hneeded⟩
    refine fun x => ⟨fun hx => ?_, fun hx => ?_⟩
    · exact some.inj hx ▸ hleft
    · rw [Leaves.unique (by decide) hx hleft]
      rfl
  · intro c' w hmoves
    rcases hmoves.recorded with ⟨id, hc⟩ | ⟨id, hc⟩
    · exact (getElem?_insert_empty.1 hc).2
    · simp [heads, hempty] at hc

end ThirdEdit

end Macha
