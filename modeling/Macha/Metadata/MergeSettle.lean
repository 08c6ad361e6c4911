import Macha.Metadata.Merge

/-!
# What settling the paths leaves

The conflicts a merge records do not depend on the entries it holds, nor the
entries on the conflicts. Each stage is therefore described by two pure
functions of the heads: the entry it leaves at a path, and the log of the
conflicts it records.
-/

namespace Macha

open List OrdMap

variable (metadataConflictId : MetadataConflict → ByteString)

def emplaceAll (log : List MetadataConflict) (st : MergeState) : MergeState :=
  log.foldl (fun st conflict => emplaceConflict metadataConflictId conflict st) st

def MergeState.setEntries (st : MergeState) (entries : NamespaceEntries) : MergeState :=
  { st with entries }

@[simp] theorem MergeState.setEntries_entries (st : MergeState) (entries : NamespaceEntries) :
    (st.setEntries entries).entries = entries := rfl

@[simp] theorem MergeState.setEntries_conflicts (st : MergeState) (entries : NamespaceEntries) :
    (st.setEntries entries).conflicts = st.conflicts := rfl

@[simp] theorem MergeState.setEntries_self (st : MergeState) : st.setEntries st.entries = st := rfl

@[simp] theorem MergeState.setEntries_setEntries (st : MergeState) (e e' : NamespaceEntries) :
    (st.setEntries e).setEntries e' = st.setEntries e' := rfl

@[simp] theorem emplaceConflict_entries (conflict : MetadataConflict) (st : MergeState) :
    (emplaceConflict metadataConflictId conflict st).entries = st.entries := by
  by_cases h : st.conflicts.contains (metadataConflictId conflict) <;> simp [emplaceConflict, h]

theorem emplaceConflict_setEntries (conflict : MetadataConflict) (st : MergeState)
    (entries : NamespaceEntries) :
    emplaceConflict metadataConflictId conflict (st.setEntries entries) =
      (emplaceConflict metadataConflictId conflict st).setEntries entries := by
  by_cases h : st.conflicts.contains (metadataConflictId conflict)
  · simp [emplaceConflict, MergeState.setEntries, h]
  · simp only [emplaceConflict, MergeState.setEntries, h]
    rfl

@[simp] theorem emplaceAll_nil (st : MergeState) : emplaceAll metadataConflictId [] st = st := rfl

@[simp] theorem emplaceAll_cons (conflict : MetadataConflict) (log : List MetadataConflict)
    (st : MergeState) :
    emplaceAll metadataConflictId (conflict :: log) st =
      emplaceAll metadataConflictId log (emplaceConflict metadataConflictId conflict st) := rfl

theorem emplaceAll_append (log log' : List MetadataConflict) (st : MergeState) :
    emplaceAll metadataConflictId (log ++ log') st =
      emplaceAll metadataConflictId log' (emplaceAll metadataConflictId log st) :=
  foldl_append

@[simp] theorem emplaceAll_entries (log : List MetadataConflict) (st : MergeState) :
    (emplaceAll metadataConflictId log st).entries = st.entries := by
  induction log generalizing st with
  | nil => rfl
  | cons conflict log ih =>
    have hstep := ih (emplaceConflict metadataConflictId conflict st)
    rw [emplaceConflict_entries] at hstep
    exact hstep

theorem emplaceAll_setEntries (log : List MetadataConflict) (st : MergeState)
    (entries : NamespaceEntries) :
    emplaceAll metadataConflictId log (st.setEntries entries) =
      (emplaceAll metadataConflictId log st).setEntries entries := by
  induction log generalizing st with
  | nil => rfl
  | cons conflict log ih =>
    simp only [emplaceAll, foldl_cons, emplaceConflict_setEntries]
    exact ih _

def settleLog (l r : Side) (path : ByteString) (a b : FsEntry) (oneFile : Bool) :
    List MetadataConflict :=
  match settleValue l r a b oneFile with
  | (_, none) => []
  | (value, some other) => [entryConflict path value other]

theorem settle_eq (l r : Side) (path : ByteString) (a b : FsEntry) (oneFile : Bool)
    (st : MergeState) :
    settle metadataConflictId l r path a b oneFile st = ((settleValue l r a b oneFile).1,
        emplaceAll metadataConflictId (settleLog l r path a b oneFile) st) := by
  unfold settle settleLog
  rcases settleValue l r a b oneFile with ⟨value, _ | other⟩ <;> rfl

theorem laterEntry_eq_or (a b : FsEntry) : laterEntry a b = a ∨ laterEntry a b = b := by
  unfold laterEntry
  split
  · split
    · exact .inl rfl
    · exact .inr rfl
  · split
    · exact .inr rfl
    · exact .inl rfl

/-- Settling invents nothing: it returns one of the two values, and keeps the
other only beside it. -/
theorem settleValue_cases (l r : Side) (a b : FsEntry) (oneFile : Bool) :
    settleValue l r a b oneFile = (a, none) ∨ settleValue l r a b oneFile = (b, none) ∨
      settleValue l r a b oneFile = (a, some b) ∨ settleValue l r a b oneFile = (b, some a) := by
  unfold settleValue
  dsimp only
  by_cases hprov : withoutProvenance a = withoutProvenance b
  · rw [if_pos hprov]
    by_cases hlt : a.provenance < b.provenance
    · simp [hlt]
    · simp [hlt]
  · have hab : b ≠ a := fun h => hprov (by rw [h])
    rw [if_neg hprov]
    split
    · exact .inr (.inl rfl)
    · split
      · exact .inl rfl
      · split
        · split
          · exact .inl rfl
          · exact .inr (.inl rfl)
        · rcases laterEntry_eq_or a b with h | h
          · simp [h]
          · simp [h, hab]

theorem settleValue_fst_eq_or (l r : Side) (a b : FsEntry) (oneFile : Bool) :
    (settleValue l r a b oneFile).1 = a ∨ (settleValue l r a b oneFile).1 = b := by
  rcases settleValue_cases l r a b oneFile with h | h | h | h <;> simp [h]

variable {a b : FsEntry}

theorem eq_of_withoutProvenance (h : withoutProvenance a = withoutProvenance b)
    (hp : a.provenance = b.provenance) : a = b := by
  cases a
  cases b
  simp only [withoutProvenance, FsEntry.mk.injEq] at h
  simp_all

theorem sameContent_comm (a b : FsEntry) : sameContent a b = sameContent b a := by
  rw [Bool.eq_iff_iff]
  simp only [sameContent, Bool.and_eq_true, beq_iff_eq]
  constructor <;>
  · rintro ⟨⟨⟨⟨⟨h₁, h₂⟩, h₃⟩, h₄⟩, h₅⟩, h₆⟩
    exact ⟨⟨⟨⟨⟨h₁.symm, h₂.symm⟩, h₃.symm⟩, h₄.symm⟩, h₅.symm⟩, h₆.symm⟩

theorem laterEntry_comm (hab : a ≠ b) : laterEntry a b = laterEntry b a := by
  unfold laterEntry
  by_cases hm : a.mtimeNs = b.mtimeNs
  · rcases lt_or_gt_of_ne hab with hlt | hlt <;> simp [hm, hlt, hlt.not_gt]
  · rcases lt_or_gt_of_ne hm with hlt | hlt <;> simp [hm, Ne.symm hm, hlt, hlt.not_gt]

theorem settleValue_comm (l r : Side) (a b : FsEntry) (oneFile : Bool) :
    settleValue l r a b oneFile = settleValue r l b a oneFile := by
  by_cases hab : a = b
  · simp [settleValue, hab]
  unfold settleValue
  by_cases hprov : withoutProvenance a = withoutProvenance b
  · have hne : a.provenance ≠ b.provenance := fun hp => hab (eq_of_withoutProvenance hprov hp)
    rcases lt_or_gt_of_ne hne with hlt | hlt <;> simp [hprov, hlt, hlt.not_gt]
  · have hprov' : ¬withoutProvenance b = withoutProvenance a := fun h => hprov h.symm
    rw [if_neg hprov, if_neg hprov']
    cases (contentSeen r l a && (oneFile || nameSeen r l a)) <;>
      cases (contentSeen l r b && (oneFile || nameSeen l r b))
    case false.true | true.false => simp
    -- Both heads have seen the other's change, or neither has.
    all_goals
      simp only [Bool.not_false, Bool.not_true, Bool.and_true, Bool.and_false, Bool.false_eq_true,
        if_false, sameContent_comm b a]
      by_cases hsame : sameContent a b
      · rcases lt_or_gt_of_ne hab with hlt | hlt <;> simp [hsame, hlt, hlt.not_gt]
      · rw [laterEntry_comm hab]
        rcases laterEntry_eq_or b a with hlater | hlater <;>
          simp [hsame, hlater, hab, Ne.symm hab]

theorem settleLog_comm (l r : Side) (path : ByteString) (a b : FsEntry) (oneFile : Bool) :
    settleLog l r path a b oneFile = settleLog r l path b a oneFile := by
  unfold settleLog
  rw [settleValue_comm]

def settledAt (l r : Side) (path : ByteString) : Option FsEntry :=
  match l.entries[path]?, r.entries[path]? with
  | some a, some b => some (if a = b then a else (settleValue l r a b false).1)
  | some a, none => if removed r l a then none else some a
  | none, some b => if removed l r b then none else some b
  | none, none => none

/-- Which heads gave it. -/
def originAt (l r : Side) (path : ByteString) : Option Origin :=
  match l.entries[path]?, r.entries[path]? with
  | some _, some _ => some .both
  | some a, none => if removed r l a then none else some .left
  | none, some b => if removed l r b then none else some .right
  | none, none => none

def pathLog (l r : Side) (path : ByteString) : List MetadataConflict :=
  match l.entries[path]?, r.entries[path]? with
  | some a, some b => if a = b then [] else settleLog l r path a b false
  | _, _ => []

theorem settlePath_eq (l r : Side) (acc : MergeState × Origins) (path : ByteString) :
    settlePath metadataConflictId l r acc path =
      ((emplaceAll metadataConflictId (pathLog l r path) acc.1).setEntries
          (acc.1.entries.insertOption path (settledAt l r path)),
        acc.2.insertOption path (originAt l r path)) := by
  unfold settlePath settledAt originAt pathLog keepPresent
  cases hl : l.entries[path]? with
  | none =>
    cases hr : r.entries[path]? with
    | none => rfl
    | some b =>
      cases hrem : removed l r b <;>
        simp [hrem, insertOption, MergeState.setEntries]
  | some a =>
    cases hr : r.entries[path]? with
    | none =>
      cases hrem : removed r l a <;>
        simp [hrem, insertOption, MergeState.setEntries]
    | some b =>
      by_cases hab : a = b
      · simp [hab, insertOption, MergeState.setEntries]
      · simp [hab, settle_eq, insertOption, MergeState.setEntries]

variable {path : ByteString} {l r : Side}

theorem settledAt_both (ha : l.entries[path]? = some a) (hb : r.entries[path]? = some b) :
    settledAt l r path = some (settleValue l r a b false).1 := by
  by_cases hab : a = b
  · simp [settledAt, ha, hb, hab, settleValue]
  · simp [settledAt, ha, hb, hab]

theorem settledAt_source {v : FsEntry} (h : settledAt l r path = some v) :
    l.entries[path]? = some v ∨ r.entries[path]? = some v := by
  cases ha : l.entries[path]? with
  | none =>
    cases hb : r.entries[path]? with
    | none => simp [settledAt, ha, hb] at h
    | some b =>
      simp only [settledAt, ha, hb] at h
      split at h
      · simp at h
      · exact .inr h
  | some a =>
    cases hb : r.entries[path]? with
    | none =>
      simp only [settledAt, ha, hb] at h
      split at h
      · simp at h
      · exact .inl h
    | some b =>
      rw [settledAt_both ha hb, Option.some.injEq] at h
      rw [← h]
      exact (settleValue_fst_eq_or l r a b false).imp
        (fun hv => by rw [hv]) (fun hv => by rw [hv])

theorem settledAt_comm (l r : Side) (path : ByteString) :
    settledAt l r path = settledAt r l path := by
  unfold settledAt
  cases hl : l.entries[path]? with
  | none => cases hr : r.entries[path]? <;> rfl
  | some a =>
    cases hr : r.entries[path]? with
    | none => rfl
    | some b =>
      by_cases hab : a = b
      · simp [hab]
      · have hba : ¬b = a := fun h => hab h.symm
        simp only [if_neg hab, if_neg hba, settleValue_comm l r a b]

theorem mem_mergePaths (l r : Side) (path : ByteString) :
    path ∈ mergePaths l r ↔ l.entries[path]?.isSome ∨ r.entries[path]?.isSome := by
  rw [mergePaths, OrdMap.mem_keys, Std.ExtTreeMap.getElem?_union]
  cases l.entries[path]? <;> cases r.entries[path]? <;> simp

theorem mem_mergePaths_of_settledAt (h : (settledAt l r path).isSome) : path ∈ mergePaths l r := by
  rw [mem_mergePaths]
  unfold settledAt at h
  cases hl : l.entries[path]? <;> cases hr : r.entries[path]? <;> simp_all

theorem mem_mergePaths_of_originAt (h : (originAt l r path).isSome) : path ∈ mergePaths l r := by
  rw [mem_mergePaths]
  unfold originAt at h
  cases hl : l.entries[path]? <;> cases hr : r.entries[path]? <;> simp_all

def settlePathsLog (l r : Side) : List MetadataConflict := (mergePaths l r).flatMap (pathLog l r)

theorem foldl_settlePath (l r : Side) (paths : List ByteString) (st : MergeState)
    (origins : Origins) :
    paths.foldl (settlePath metadataConflictId l r) (st, origins) =
      ((emplaceAll metadataConflictId (paths.flatMap (pathLog l r)) st).setEntries
          (paths.foldl (fun m k => m.insertOption k (settledAt l r k)) st.entries),
        paths.foldl (fun m k => m.insertOption k (originAt l r k)) origins) := by
  induction paths generalizing st origins with
  | nil => rfl
  | cons path paths ih =>
    simp only [foldl_cons, settlePath_eq, ih, flatMap_cons, emplaceAll_append,
      emplaceAll_setEntries, MergeState.setEntries_setEntries, MergeState.setEntries_entries]

theorem settlePaths_eq (l r : Side) : settlePaths metadataConflictId l r =
      ((emplaceAll metadataConflictId (settlePathsLog l r) {}).setEntries
          (tabulate (mergePaths l r) (settledAt l r)),
        tabulate (mergePaths l r) (originAt l r)) :=
  foldl_settlePath metadataConflictId l r (mergePaths l r) {} ∅

end Macha
