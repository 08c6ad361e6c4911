import Macha.Metadata.MergePrune

/-!
# The result of a merge

The whole merge of two heads as a function of the directories put back: what
the result holds in each field, and where each of its conflicts comes from.
-/

namespace Macha

open List Option OrdMap

variable (metadataConflictId : MetadataConflict → ByteString)

theorem emplaceAll_conflicts (hinj : Function.Injective metadataConflictId)
    (log : List MetadataConflict) (st : MergeState) (id : ByteString) (c : MetadataConflict) :
    (emplaceAll metadataConflictId log st).conflicts[id]? = some c ↔ st.conflicts[id]? = some c ∨
        (st.conflicts[id]? = none ∧ c ∈ log ∧ metadataConflictId c = id) := by
  induction log generalizing st with
  | nil => simp
  | cons x log ih =>
    rw [emplaceAll_cons, ih]
    unfold emplaceConflict
    by_cases hin : st.conflicts.contains (metadataConflictId x)
    · have hsome := (OrdMap.contains_iff _ _).1 hin
      simp only [hin, if_true, mem_cons]
      constructor
      · rintro (h | ⟨hnone, hc, hid⟩)
        · exact .inl h
        · exact .inr ⟨hnone, .inr hc, hid⟩
      · rintro (h | ⟨hnone, rfl | hc, hid⟩)
        · exact .inl h
        · rw [hid, hnone] at hsome
          simp at hsome
        · exact .inr ⟨hnone, hc, hid⟩
    · have hnone : st.conflicts[metadataConflictId x]? = none := by
        rw [OrdMap.contains_iff, not_isSome_iff_eq_none] at hin
        exact hin
      simp only [hin, Bool.false_eq_true, if_false, mem_cons]
      by_cases hid : metadataConflictId x = id
      · subst hid
        rw [getElem?_insert_self, hnone]
        constructor
        · rintro (h | ⟨h, -⟩)
          · obtain rfl : x = c := by simpa using h
            exact .inr ⟨rfl, .inl rfl, rfl⟩
          · simp at h
        · rintro (h | ⟨-, -, hc⟩)
          · simp at h
          · exact .inl (by rw [hinj hc])
      · rw [getElem?_insert_of_ne _ _ hid]
        have hne : ∀ c, metadataConflictId c = id → c ≠ x := fun c hc h => hid (h ▸ hc)
        constructor
        · rintro (h | ⟨h, hc, hcid⟩)
          · exact .inl h
          · exact .inr ⟨h, .inr hc, hcid⟩
        · rintro (h | ⟨h, hc, hcid⟩)
          · exact .inl h
          · exact .inr ⟨h, hc.resolve_left (hne c hcid), hcid⟩

theorem emplaceStanding_getElem? (conflicts standing : Conflicts) (id : ByteString) :
    (emplaceStanding conflicts standing)[id]? = conflicts[id]?.or standing[id]? := by
  unfold emplaceStanding
  rw [getElem?_foldl_toList standing _ fun _ conflict old => old.or (some conflict)]
  · cases standing[id]? <;> simp
  · intro m x
    rw [getElem?_insertIfNew]
    cases m[x.1]? <;> simp
  · intro m x a hne
    rw [getElem?_insertIfNew]
    simp [hne]

def mergedCatalogue (l r : Side) : Option ObjectId × MetadataDot :=
  if l.snapshot.catalogueRoot = r.snapshot.catalogueRoot then
    (l.snapshot.catalogueRoot,
      if catalogueSeen r l ≠ catalogueSeen l r then
        (if catalogueSeen l r then l.snapshot.catalogueDot else r.snapshot.catalogueDot)
      else max l.snapshot.catalogueDot r.snapshot.catalogueDot)
  else if takeLeftCatalogue l r then (l.snapshot.catalogueRoot, l.snapshot.catalogueDot)
  else (r.snapshot.catalogueRoot, r.snapshot.catalogueDot)

def catalogueLog (l r : Side) (leftHead rightHead : Hash256) : List MetadataConflict :=
  if l.snapshot.catalogueRoot = r.snapshot.catalogueRoot ∨
      catalogueSeen r l ≠ catalogueSeen l r then []
  else [catalogueConflict l r leftHead rightHead]

theorem mergeCatalogue_eq (l r : Side) (leftHead rightHead : Hash256) (st : MergeState) :
    mergeCatalogue metadataConflictId l r leftHead rightHead st =
      ((mergedCatalogue l r).1, (mergedCatalogue l r).2,
        emplaceAll metadataConflictId (catalogueLog l r leftHead rightHead) st) := by
  unfold mergeCatalogue mergedCatalogue catalogueLog
  by_cases hroot : l.snapshot.catalogueRoot = r.snapshot.catalogueRoot
  · simp [hroot]
  · by_cases hseen : catalogueSeen r l = catalogueSeen l r <;>
      cases htake : takeLeftCatalogue l r <;> simp [hroot, hseen]

/-- Every conflict the merge records, in order; `restored` are those of the
directories put back. -/
def createdLog (l r : Side) (leftHead rightHead : Hash256) (restored : List MetadataConflict) :
    List MetadataConflict :=
  joinedLog l r ++ restored ++ catalogueLog l r leftHead rightHead

/-- The conflicts before pruning: those recorded, then those standing. -/
def unprunedConflicts (l r : Side) (leftHead rightHead : Hash256)
    (restored : List MetadataConflict) : Conflicts :=
  emplaceStanding
    (emplaceStanding
      (emplaceAll metadataConflictId (createdLog l r leftHead rightHead restored) {}).conflicts
      l.snapshot.conflicts)
    r.snapshot.conflicts

/-- The result of the merge over the namespace `e` of the three stages. -/
def mergedResult (l r : Side) (leftHead rightHead : Hash256) (e : NamespaceEntries)
    (restored : List MetadataConflict) : MetadataMergeResult :=
  let created := emplaceAll metadataConflictId (createdLog l r leftHead rightHead restored) {}
  let pruned := pruneSupersededConflicts (mergedCatalogue l r).1 (mergedCatalogue l r).2 e
    (unprunedConflicts metadataConflictId l r leftHead rightHead restored)
  { snapshot := joinedSnapshot l r (mergedCatalogue l r).1 (mergedCatalogue l r).2 pruned
    conflictsCreated := created.conflictsCreated
    createdKeys := created.createdKeys
    conflictsSuperseded := pruned.pruned }

variable {l r : Side} {e e' : NamespaceEntries} {restored : List MetadataConflict}
  {c : MetadataConflict} {scope : ByteString → Prop}

theorem mergeOrdered_of_mergeNamespace (h : mergeNamespace metadataConflictId l r =
      .ok ((emplaceAll metadataConflictId (joinedLog l r ++ restored) {}).setEntries e))
    (leftHead rightHead : Hash256) :
    mergeOrdered metadataConflictId l r leftHead rightHead =
      .ok (mergedResult metadataConflictId l r leftHead rightHead e restored) := by
  unfold mergeOrdered
  simp only [h, bind, Except.bind, mergeCatalogue_eq, emplaceAll_setEntries, ← emplaceAll_append]
  rfl

theorem mergeOrdered_eq (hl : Closed l.entries) (hr : Closed r.entries)
    (leftHead rightHead : Hash256) :
    ∃ e restored, mergeOrdered metadataConflictId l r leftHead rightHead =
        .ok (mergedResult metadataConflictId l r leftHead rightHead e restored) ∧
      Restores l r (Needed (joinedEntries l r)) (joinedEntries l r) e restored ∧ Closed e := by
  obtain ⟨e, restored, hrun, hrest, hclosed⟩ := mergeNamespace_spec metadataConflictId hl hr
  exact ⟨e, restored, mergeOrdered_of_mergeNamespace metadataConflictId hrun leftHead rightHead,
    hrest, hclosed⟩

theorem mergedResult_entries (l r : Side) (leftHead rightHead : Hash256) (e : NamespaceEntries)
    (restored : List MetadataConflict) (p : ByteString) :
    (mergedResult metadataConflictId l r leftHead rightHead e restored).snapshot.entries[p]? =
      agreedAt (unprunedConflicts metadataConflictId l r leftHead rightHead restored) p e[p]? :=
  prune_entries _ _ e _ p

theorem unprunedConflicts_getElem? (l r : Side) (leftHead rightHead : Hash256)
    (restored : List MetadataConflict) (id : ByteString) :
    (unprunedConflicts metadataConflictId l r leftHead rightHead restored)[id]? =
      ((emplaceAll metadataConflictId (createdLog l r leftHead rightHead restored)
        {}).conflicts[id]?.or l.snapshot.conflicts[id]?).or r.snapshot.conflicts[id]? := by
  rw [unprunedConflicts, emplaceStanding_getElem?, emplaceStanding_getElem?]

theorem settleLog_eq {p : ByteString} {a b : FsEntry} {oneFile : Bool}
    (h : c ∈ settleLog l r p a b oneFile) :
    ∃ other, settleValue l r a b oneFile = ((settleValue l r a b oneFile).1, some other) ∧
      c = entryConflict p (settleValue l r a b oneFile).1 other := by
  unfold settleLog at h
  rcases hv : settleValue l r a b oneFile with ⟨value, _ | other⟩
  · simp [hv] at h
  · simp only [hv, mem_singleton] at h
    exact ⟨other, rfl, h⟩

theorem exists_entryConflict (hrest : Restores l r scope e e' restored)
    (hc : c ∈ joinedLog l r ++ restored) :
    ∃ p v w, c = entryConflict p v w := by
  simp only [joinedLog, mem_append] at hc
  rcases hc with (hc | hc) | hc
  · obtain ⟨p, a, b, -, -, -, hc⟩ := mem_settlePathsLog.1 hc
    obtain ⟨other, -, hc⟩ := settleLog_eq hc
    exact ⟨p, _, other, hc⟩
  · obtain ⟨x, y, a, b, -, hc⟩ := mem_joinIdentitiesLog.1 hc
    obtain ⟨other, -, hc⟩ := settleLog_eq hc
    exact ⟨_, _, other, hc⟩
  · obtain ⟨q, d, f, -, -, -, -, hc⟩ := hrest.sound c hc
    exact ⟨q, d, f, hc⟩

/-- Conflicts under the ids of their records, as decoding checks them. -/
def WellKeyed (conflicts : Conflicts) : Prop :=
  ∀ (id : ByteString) (c : MetadataConflict), conflicts[id]? = some c → id = metadataConflictId c

theorem getElem?_insert_empty {id id' : ByteString} {record : MetadataConflict} :
    ((∅ : Conflicts).insert id record)[id']? = some c ↔ id' = id ∧ c = record := by
  by_cases h : id = id'
  · subst h
    rw [getElem?_insert_self]
    simp [eq_comm]
  · rw [getElem?_insert_of_ne _ _ h]
    simp [Ne.symm h]

variable {leftHead rightHead : Hash256}

theorem laterInstalled_of_mem_createdLog (hrest : Restores l r scope e e' restored)
    (hc : c ∈ createdLog l r leftHead rightHead restored) : c.laterInstalled = true := by
  rcases mem_append.1 hc with hc | hc
  · obtain ⟨p, v, w, rfl⟩ := exists_entryConflict hrest hc
    rfl
  · unfold catalogueLog at hc
    split at hc
    · simp at hc
    · rw [mem_singleton.1 hc]
      rfl

theorem agreedOverBase_of_laterInstalled (h : c.laterInstalled = true) :
    agreedOverBase c = none := by
  simp [agreedOverBase, h]

section

variable (hinj : Function.Injective metadataConflictId)

include hinj

theorem unprunedConflicts_cases {id : ByteString}
    (hc : (unprunedConflicts metadataConflictId l r leftHead rightHead restored)[id]? = some c) :
    (c ∈ createdLog l r leftHead rightHead restored ∧ metadataConflictId c = id) ∨
      l.snapshot.conflicts[id]? = some c ∨ r.snapshot.conflicts[id]? = some c := by
  rw [unprunedConflicts_getElem?, or_eq_some_iff, or_eq_some_iff,
    emplaceAll_conflicts metadataConflictId hinj] at hc
  rcases hc with ((hc | ⟨-, hc⟩) | ⟨-, hc⟩) | ⟨-, hc⟩
  · simp at hc
  · exact .inl hc
  · exact .inr (.inl hc)
  · exact .inr (.inr hc)

theorem recorded_of_movesAt (hrest : Restores l r scope e e' restored)
    (hc : RecordIn (unprunedConflicts metadataConflictId l r leftHead rightHead restored) c)
    {key : ByteString} {value : Option FsEntry} {w : FsEntry} (h : MovesAt key value c w) :
    RecordIn l.snapshot.conflicts c ∨ RecordIn r.snapshot.conflicts c := by
  obtain ⟨id, hc⟩ := hc
  rcases unprunedConflicts_cases metadataConflictId hinj hc with ⟨hc, -⟩ | hc | hc
  · have hagreed := h.agreed
    rw [agreedOverBase_of_laterInstalled (laterInstalled_of_mem_createdLog hrest hc)] at hagreed
    simp at hagreed
  · exact .inl ⟨id, hc⟩
  · exact .inr ⟨id, hc⟩

theorem unprunedConflicts_of_created (hc : c ∈ createdLog l r leftHead rightHead restored) :
    (unprunedConflicts metadataConflictId l r leftHead rightHead restored)[metadataConflictId c]? =
      some c := by
  have hcreated : (emplaceAll metadataConflictId (createdLog l r leftHead rightHead restored)
      {}).conflicts[metadataConflictId c]? = some c :=
    (emplaceAll_conflicts metadataConflictId hinj _ _ _ _).2 (.inr ⟨by simp, hc, rfl⟩)
  rw [unprunedConflicts_getElem?, hcreated]
  rfl

section

variable (hl : WellKeyed metadataConflictId l.snapshot.conflicts)
  (hr : WellKeyed metadataConflictId r.snapshot.conflicts)

include hl hr

theorem unprunedConflicts_wellKeyed :
    WellKeyed metadataConflictId
      (unprunedConflicts metadataConflictId l r leftHead rightHead restored) := by
  intro id c hc
  rcases unprunedConflicts_cases metadataConflictId hinj hc with ⟨-, hid⟩ | hc | hc
  · exact hid.symm
  · exact hl id c hc
  · exact hr id c hc

theorem unprunedConflicts_of_standing {id : ByteString}
    (hc : l.snapshot.conflicts[id]? = some c ∨ r.snapshot.conflicts[id]? = some c) :
    (unprunedConflicts metadataConflictId l r leftHead rightHead restored)[id]? = some c := by
  have hid : id = metadataConflictId c := hc.elim (hl id c) (hr id c)
  have hsome : (unprunedConflicts metadataConflictId l r leftHead rightHead
      restored)[id]?.isSome := by
    rw [unprunedConflicts_getElem?]
    rcases hc with hc | hc <;> simp [hc]
  obtain ⟨c', hc'⟩ := isSome_iff_exists.1 hsome
  rw [hc', hinj ((unprunedConflicts_wellKeyed metadataConflictId hinj hl hr id c' hc').symm.trans
    hid)]

end

end

/-- The two heads, the one with the lesser hash on the left. -/
def orderedSides (left right : MetadataSnapshot) (leftHead rightHead : Hash256) : Side × Side :=
  if rightHead < leftHead then (⟨right, right.entries⟩, ⟨left, left.entries⟩)
  else (⟨left, left.entries⟩, ⟨right, right.entries⟩)

theorem mergeMetadataHeads_eq {left right : MetadataSnapshot} (hleft : left.namespaceRoot = none)
    (hright : right.namespaceRoot = none) (hne : leftHead ≠ rightHead) :
    mergeMetadataHeads metadataConflictId left right leftHead rightHead =
      mergeOrdered metadataConflictId (orderedSides left right leftHead rightHead).1
        (orderedSides left right leftHead rightHead).2
        (min leftHead rightHead) (max leftHead rightHead) := by
  unfold mergeMetadataHeads mergeMetadataHeadsOver orderedSides
  simp only [hleft, hright, isSome_none, Bool.or_self, Bool.false_eq_true, if_false, hne]
  by_cases hlt : rightHead < leftHead
  · simp [hlt, min_eq_right hlt.le, max_eq_left hlt.le]
  · have hle : leftHead ≤ rightHead := not_lt.1 hlt
    simp [hlt, min_eq_left hle, max_eq_right hle]

end Macha
