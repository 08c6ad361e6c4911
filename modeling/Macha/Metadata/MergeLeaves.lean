import Macha.Metadata.MergeSide

/-!
# What a merge leaves at a path

Told from the two heads: what they give the path, which name a file keeps, and
which directory is put back for what is under it. Pruning comes after and moves a
value only where a record of the heads stands over it.
-/

namespace Macha

open Option OrdMap

/-- What this head gives a path: the settled value where both hold it, an entry the
other head has neither removed nor under another name, or the settled content of a
file whose name here is the one kept. -/
inductive Gives (mine theirs : Side) (myHead theirHead : Hash256) (key : ByteString) :
    FsEntry → Prop
  | both {a b : FsEntry} (held : mine.entries[key]? = some a)
      (other : theirs.entries[key]? = some b) :
      Gives mine theirs myHead theirHead key (settleValue mine theirs a b false).1
  | alone {a : FsEntry} (held : mine.entries[key]? = some a) (other : theirs.entries[key]? = none)
      (kept : removed theirs mine a = false)
      (single : ∀ q b, ¬JoinedPair mine theirs key q a b) :
      Gives mine theirs myHead theirHead key a
  | name {q : ByteString} {a b : FsEntry} (pair : JoinedPair mine theirs key q a b)
      (keeps : KeepsName mine theirs myHead theirHead a b) :
      Gives mine theirs myHead theirHead key
        (renamed (settleValue mine theirs a b true).1 a.provenance.name)

/-- Two heads to merge, with the hashes of their commits: snapshots in map form, in
which every entry has its directories. -/
structure MergeHeads where
  left : MetadataSnapshot
  right : MetadataSnapshot
  leftHead : Hash256
  rightHead : Hash256
  leftMap : left.namespaceRoot = none
  rightMap : right.namespaceRoot = none
  leftClosed : Closed left.entries
  rightClosed : Closed right.entries

section

variable (heads : MergeHeads) (key : ByteString)

/-- What the two heads give a path. -/
def Given (x : FsEntry) : Prop :=
  Gives (sideOf heads.left) (sideOf heads.right) heads.leftHead heads.rightHead key x ∨
    Gives (sideOf heads.right) (sideOf heads.left) heads.rightHead heads.leftHead key x

/-- A path over one the heads give an entry. -/
def NeededBelow : Prop :=
  ∃ q x, Given heads q x ∧ Upward (parentPath q) key

/-- What a merge leaves at a path before it prunes the conflicts: what the heads
give it, or the directory one of them holds there where that is needed. -/
def Leaves (x : FsEntry) : Prop :=
  (Given heads key x ∧ (x.isDirectory ∨ ¬NeededBelow heads key)) ∨
    (NeededBelow heads key ∧ x.isDirectory ∧
      (heads.left.entries[key]? = some x ∨ heads.right.entries[key]? = some x) ∧
      ∀ y, Given heads key y → y.isDirectory = false)

end

section

variable {l r mine theirs : Side} {myHead theirHead : Hash256} {entries : NamespaceEntries}
  {restored : List MetadataConflict} {key p : ByteString} {e b x : FsEntry}

theorem Gives.held (h : Gives mine theirs myHead theirHead key x) :
    mine.entries[key]?.isSome := by
  cases h with
  | both held => simp [held]
  | alone held => simp [held]
  | name pair => simp [pair.leftEntry.1]

theorem JoinedPair.eq_of_left {x y y' : ByteString} {a a' b b' : FsEntry}
    (h : JoinedPair l r x y a b) (h' : JoinedPair l r x y' a' b') : y' = y ∧ a' = a ∧ b' = b := by
  have ha : a' = a := by
    have hx := h'.left
    rw [h.left, some.injEq] at hx
    exact hx.symm
  have hy : y' = y := by
    rcases h.only y' b' h'.right (h'.fileId.trans (by rw [ha])) with hx | hy
    · exact (h'.ne hx.symm).elim
    · exact hy
  refine ⟨hy, ha, ?_⟩
  have hb := h'.right
  rw [hy, h.right, some.injEq] at hb
  exact hb.symm

theorem HashedSides.joined_of_gives (h : HashedSides l r mine theirs myHead theirHead)
    (hgives : Gives mine theirs myHead theirHead key x) :
    (joinedEntries l r)[key]? = some x := by
  cases hgives with
  | both held other => rw [h.sides.joined_of_both held other, settledAt_both held other]
  | alone held other kept single =>
    rw [h.sides.joined_of_not_pair]
    · simp [settledAt, held, other, kept]
    · intro q a b hpair
      obtain rfl := some.inj (hpair.leftEntry.1.symm.trans held)
      exact single q b hpair
    · intro q a b hpair
      simp [hpair.rightEntry.2.1] at held
  | name pair keeps =>
    obtain ⟨kept, dropped, name, hout⟩ := h.sides.pairOutcome pair
    have hpath := (h.kept_iff pair hout).2 keeps
    rw [← hout.name_eq pair hpath, ← hpath]
    exact hout.entry

theorem gives_of_settledAt (hmine : ∀ q a b, ¬JoinedPair mine theirs key q a b)
    (htheirs : ∀ q a b, ¬JoinedPair mine theirs q key a b)
    (hx : settledAt mine theirs key = some x) :
    Gives mine theirs myHead theirHead key x ∨ Gives theirs mine theirHead myHead key x := by
  cases ha : mine.entries[key]? with
  | some a =>
    cases hb : theirs.entries[key]? with
    | some b =>
      rw [settledAt_both ha hb, some.injEq] at hx
      exact .inl (hx ▸ .both ha hb)
    | none =>
      simp only [settledAt, ha, hb, ite_eq_iff, reduceCtorEq, and_false, false_or, some.injEq,
        Bool.not_eq_true] at hx
      exact .inl (hx.2 ▸ .alone ha hb hx.1 fun q b => hmine q a b)
  | none =>
    cases hb : theirs.entries[key]? with
    | some b =>
      simp only [settledAt, ha, hb, ite_eq_iff, reduceCtorEq, and_false, false_or, some.injEq,
        Bool.not_eq_true] at hx
      exact .inr (hx.2 ▸ .alone hb ha hx.1 fun q a hpair => htheirs q a b hpair.swap)
    | none => simp [settledAt, ha, hb] at hx

theorem Sides.directoryOf_of_held (hside : Sides l r mine theirs)
    (hdir : isDirectoryAt (joinedEntries l r) key = false) (hx : mine.entries[key]? = some x)
    (hxdir : x.isDirectory) : Macha.directoryOf l r key = some x := by
  have hmine : isDirectoryAt mine.entries key := by simp [isDirectoryAt, hx, hxdir]
  cases htheirs : isDirectoryAt theirs.entries key with
  | false => simp [hside.symm.directoryOf htheirs, hmine, hx]
  | true =>
    have hboth : isDirectoryAt (joinedEntries l r) key := by
      rcases hside with ⟨rfl, rfl⟩ | ⟨rfl, rfl⟩
      · exact joinedEntries_keepsCommon _ _ key hmine htheirs
      · exact joinedEntries_keepsCommon _ _ key htheirs hmine
    simp [hdir] at hboth

theorem HashedSides.gives_of_pair (h : HashedSides l r mine theirs myHead theirHead)
    {q : ByteString} {a : FsEntry} (hpair : JoinedPair mine theirs key q a b)
    (hx : (joinedEntries l r)[key]? = some x) : Gives mine theirs myHead theirHead key x := by
  obtain ⟨kept, dropped, name, hout⟩ := h.sides.pairOutcome hpair
  have hpath : kept = key := hout.kept_eq (.inl rfl) (by simp [hx])
  rw [← hpath, hout.entry, hout.name_eq hpair hpath, some.injEq] at hx
  rw [← hx]
  exact .name hpair ((h.kept_iff hpair hout).1 hpath)

section

variable (hrest : Restores l r (Needed (joinedEntries l r)) (joinedEntries l r) entries restored)
  (hside : Sides l r mine theirs)

include hrest hside

/-- A joined file is where it was joined: no directory takes a name of it. -/
theorem Sides.final_of_pair {q kept dropped : ByteString} {name : MetadataDot}
    (hpair : JoinedPair mine theirs p q e b)
    (hout : PairOutcome l r mine theirs p q e b kept dropped name) :
    entries[kept]? = some (renamed (settleValue mine theirs e b true).1 name) := by
  rcases hrest.at_some hout.entry with hat | ⟨hfile, d, -, -, hdir, -⟩
  · exact hat
  · have htype : (renamed (settleValue mine theirs e b true).1 name).type = e.type := by
      rcases settleValue_fst_eq_or mine theirs e b true with hv | hv <;> rw [hv]
      · rfl
      · exact hpair.type.symm
    have hefile : e.isDirectory = false := by
      rw [FsEntry.isDirectory, ← htype]
      exact hfile
    have hbfile : b.isDirectory = false := by
      rw [FsEntry.isDirectory, ← hpair.type]
      exact hefile
    rcases hout.which with ⟨rfl, -⟩ | ⟨rfl, -⟩
    · have hmine : isDirectoryAt mine.entries kept = false := by
        simp [isDirectoryAt, hpair.leftEntry.1, hefile]
      have htheirs : isDirectoryAt theirs.entries kept = false := by
        simp [isDirectoryAt, hpair.leftEntry.2.1]
      rw [hside.directoryOf hmine, htheirs] at hdir
      simp at hdir
    · have hmine : isDirectoryAt mine.entries kept = false := by
        simp [isDirectoryAt, hpair.rightEntry.2.1]
      have htheirs : isDirectoryAt theirs.entries kept = false := by
        simp [isDirectoryAt, hpair.rightEntry.1, hbfile]
      rw [hside.directoryOf hmine, htheirs] at hdir
      simp at hdir

theorem Sides.final_of_alone (he : mine.entries[p]? = some e) (hb : theirs.entries[p]? = none)
    (hkept : removed theirs mine e = false) (hpair : ¬∃ q a b, JoinedPair mine theirs p q a b) :
    entries[p]? = some e := by
  have hjoined : (joinedEntries l r)[p]? = some e := by
    rw [hside.joined_of_not_pair]
    · simp [Macha.settledAt, he, hb, hkept]
    · exact fun q a b h => hpair ⟨q, a, b, h⟩
    · intro q a b h
      simp [h.rightEntry.2.1] at he
  rcases hrest.at_some hjoined with hat | ⟨hfile, d, -, -, hdir, -⟩
  · exact hat
  · have hmine : isDirectoryAt mine.entries p = false := by simp [isDirectoryAt, he, hfile]
    have htheirs : isDirectoryAt theirs.entries p = false := by simp [isDirectoryAt, hb]
    rw [hside.directoryOf hmine, htheirs] at hdir
    simp at hdir

end

end

variable {heads : MergeHeads} {key : ByteString} {x y w : FsEntry} {c : MetadataConflict}

theorem Leaves.held (h : Leaves heads key x) :
    heads.left.entries[key]?.isSome ∨ heads.right.entries[key]?.isSome := by
  rcases h with ⟨hgiven, -⟩ | ⟨-, -, hheld, -⟩
  · exact hgiven.imp Gives.held Gives.held
  · exact hheld.imp (by simp [·]) (by simp [·])

/-! ## The run of a merge -/

/-- A merge of two heads before it prunes the conflicts: the sides in the order of
their hashes, the namespace, and the records of what directories took the place of. -/
structure MergeRun (heads : MergeHeads) where
  l : Side
  r : Side
  entries : NamespaceEntries
  restored : List MetadataConflict
  hashed : HashedSides l r (sideOf heads.left) (sideOf heads.right) heads.leftHead heads.rightHead
  restores : Restores l r (Needed (joinedEntries l r)) (joinedEntries l r) entries restored
  closed : Closed entries

section

variable (metadataConflictId : MetadataConflict → ByteString)

def MergeRun.conflicts (run : MergeRun heads) : Conflicts :=
  unprunedConflicts metadataConflictId run.l run.r (min heads.leftHead heads.rightHead)
    (max heads.leftHead heads.rightHead) run.restored

def MergeRun.result (run : MergeRun heads) : MetadataMergeResult :=
  mergedResult metadataConflictId run.l run.r (min heads.leftHead heads.rightHead)
    (max heads.leftHead heads.rightHead) run.entries run.restored

theorem MergeRun.result_entries (run : MergeRun heads) (key : ByteString) :
    (run.result metadataConflictId).snapshot.entries[key]? =
      agreedAt (run.conflicts metadataConflictId) key run.entries[key]? :=
  mergedResult_entries ..

theorem MergeHeads.exists_run (hne : heads.leftHead ≠ heads.rightHead) :
    ∃ run : MergeRun heads, mergeMetadataHeads metadataConflictId heads.left heads.right
      heads.leftHead heads.rightHead = .ok (run.result metadataConflictId) := by
  obtain ⟨hl, hr⟩ := orderedSides_closed heads.leftClosed heads.rightClosed heads.leftHead
    heads.rightHead
  obtain ⟨entries, restored, hrun, hrest, hclosed⟩ := mergeOrdered_eq metadataConflictId hl hr
    (min heads.leftHead heads.rightHead) (max heads.leftHead heads.rightHead)
  exact ⟨⟨_, _, entries, restored, orderedSides_hashed _ _ hne, hrest, hclosed⟩,
    (mergeMetadataHeads_eq metadataConflictId heads.leftMap heads.rightMap hne).trans hrun⟩

end

namespace MergeRun

variable (run : MergeRun heads)

theorem joined_iff (key : ByteString) (x : FsEntry) :
    (joinedEntries run.l run.r)[key]? = some x ↔ Given heads key x := by
  have h := run.hashed
  refine ⟨fun hx => ?_, fun hgiven => hgiven.elim h.joined_of_gives h.symm.joined_of_gives⟩
  by_cases hleft : ∃ q a b, JoinedPair (sideOf heads.left) (sideOf heads.right) key q a b
  · obtain ⟨q, a, b, hpair⟩ := hleft
    exact .inl (h.gives_of_pair hpair hx)
  by_cases hright : ∃ q a b, JoinedPair (sideOf heads.left) (sideOf heads.right) q key a b
  · obtain ⟨q, a, b, hpair⟩ := hright
    exact .inr (h.symm.gives_of_pair hpair.swap hx)
  simp only [not_exists] at hleft hright
  rw [h.sides.joined_of_not_pair hleft hright] at hx
  exact gives_of_settledAt hleft hright hx

theorem needed_iff : Needed (joinedEntries run.l run.r) key ↔ NeededBelow heads key := by
  simp only [Needed, NeededBelow, isSome_iff_exists, run.joined_iff, exists_and_right]

/-- The namespace before pruning is what the heads leave. -/
theorem leaves_iff (key : ByteString) (x : FsEntry) :
    run.entries[key]? = some x ↔ Leaves heads key x := by
  have hsides := run.hashed.sides
  unfold Leaves
  simp only [← run.needed_iff, ← run.joined_iff]
  cases hdir : isDirectoryAt (joinedEntries run.l run.r) key with
  | true =>
    obtain ⟨d, hd, hd'⟩ := (isDirectoryAt_iff _ _).1 hdir
    rw [run.restores.keeps hdir]
    constructor
    · intro hx
      obtain rfl := some.inj (hd.symm.trans hx)
      exact .inl ⟨hx, .inl hd'⟩
    · rintro (⟨hx, -⟩ | ⟨-, -, -, hall⟩)
      · exact hx
      · simp [hall d hd] at hd'
  | false =>
    have hfile : ∀ y, (joinedEntries run.l run.r)[key]? = some y → y.isDirectory = false :=
      fun y hy => by simpa [isDirectoryAt, hy] using hdir
    by_cases hneed : Needed (joinedEntries run.l run.r) key
    · rw [(run.restores.at_needed run.closed hneed hdir).1]
      constructor
      · exact fun hx => .inr ⟨hneed, directoryOf_isDirectory hx, hsides.directoryOf_source hx, hfile⟩
      · rintro (⟨hx, hxdir | hnot⟩ | ⟨-, hxdir, hleft | hright, -⟩)
        · simp [hfile x hx] at hxdir
        · exact (hnot hneed).elim
        · exact hsides.directoryOf_of_held hdir hleft hxdir
        · exact hsides.symm.directoryOf_of_held hdir hright hxdir
    · rw [run.restores.at_not_needed hneed]
      exact ⟨fun hx => .inl ⟨hx, .inr hneed⟩, fun hor => hor.elim And.left fun h => (hneed h.1).elim⟩

end MergeRun

theorem Leaves.unique (hne : heads.leftHead ≠ heads.rightHead) (hx : Leaves heads key x)
    (hy : Leaves heads key y) : x = y := by
  obtain ⟨run, -⟩ := MergeHeads.exists_run (fun _ => []) hne
  exact some.inj (((run.leaves_iff key x).2 hx).symm.trans ((run.leaves_iff key y).2 hy))

/-! ## Records that move what it leaves -/

theorem MovesAt.self {value : Option FsEntry} (h : MovesAt key value c w) :
    MovesAt key (conflictInstalledEntry c) c w :=
  h.installed.symm ▸ h

section

variable (heads)

/-- A record of either head that moves a value at the path. -/
structure AgreedAt (key : ByteString) (c : MetadataConflict) (w : FsEntry) : Prop where
  recorded : RecordIn heads.left.conflicts c ∨ RecordIn heads.right.conflicts c
  moves : MovesAt key (conflictInstalledEntry c) c w

/-- One that stands over what the merge leaves there. -/
structure MovesLeft (key : ByteString) (c : MetadataConflict) (w : FsEntry) : Prop
    extends AgreedAt heads key c w where
  stands : ∀ x, conflictInstalledEntry c = some x ↔ Leaves heads key x

end

namespace MergeRun

variable (run : MergeRun heads)

theorem movesLeft_iff : MovesLeft heads key c w ↔
    (RecordIn heads.left.conflicts c ∨ RecordIn heads.right.conflicts c) ∧
      MovesAt key run.entries[key]? c w := by
  constructor
  · intro hmoves
    have hvalue : conflictInstalledEntry c = run.entries[key]? := Option.ext fun x =>
      (hmoves.stands x).trans (run.leaves_iff key x).symm
    exact ⟨hmoves.recorded, hvalue ▸ hmoves.moves⟩
  · rintro ⟨hrec, hmoves⟩
    have hvalue := hmoves.installed
    exact ⟨⟨hrec, hvalue.symm ▸ hmoves⟩, fun x => hvalue ▸ run.leaves_iff key x⟩

variable {metadataConflictId : MetadataConflict → ByteString}
  (hinj : Function.Injective metadataConflictId)

include hinj

theorem conflicts_of_standing (hl : WellKeyed metadataConflictId heads.left.conflicts)
    (hr : WellKeyed metadataConflictId heads.right.conflicts) {id : ByteString}
    (hc : heads.left.conflicts[id]? = some c ∨ heads.right.conflicts[id]? = some c) :
    (run.conflicts metadataConflictId)[id]? = some c := by
  unfold conflicts
  rcases run.hashed with ⟨hm, ht, -⟩ | ⟨hm, ht, -⟩ <;> rw [← hm, ← ht]
  · exact unprunedConflicts_of_standing metadataConflictId hinj hl hr hc
  · exact unprunedConflicts_of_standing metadataConflictId hinj hr hl hc.symm

theorem conflicts_wellKeyed (hl : WellKeyed metadataConflictId heads.left.conflicts)
    (hr : WellKeyed metadataConflictId heads.right.conflicts) :
    WellKeyed metadataConflictId (run.conflicts metadataConflictId) := by
  unfold conflicts
  rcases run.hashed with ⟨hm, ht, -⟩ | ⟨hm, ht, -⟩ <;> rw [← hm, ← ht]
  · exact unprunedConflicts_wellKeyed metadataConflictId hinj hl hr
  · exact unprunedConflicts_wellKeyed metadataConflictId hinj hr hl

theorem agreedAt_of_conflicts (hc : RecordIn (run.conflicts metadataConflictId) c)
    {value : Option FsEntry} (hmoves : MovesAt key value c w) : AgreedAt heads key c w := by
  have hrec := recorded_of_movesAt metadataConflictId hinj run.restores hc hmoves
  rcases run.hashed with ⟨hl, hr, -⟩ | ⟨hl, hr, -⟩ <;> rw [← hl, ← hr] at hrec
  · exact ⟨hrec, hmoves.self⟩
  · exact ⟨hrec.symm, hmoves.self⟩

theorem movesLeft_of_conflicts (hc : RecordIn (run.conflicts metadataConflictId) c)
    (hmoves : MovesAt key run.entries[key]? c w) : MovesLeft heads key c w :=
  run.movesLeft_iff.2 ⟨(run.agreedAt_of_conflicts hinj hc hmoves).recorded, hmoves⟩

end MergeRun

end Macha
