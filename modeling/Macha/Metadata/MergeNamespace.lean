import Macha.Metadata.MergeParents

/-!
# The namespace of a merge

The three stages put together: what the merge of two closed namespaces holds
at each path, and which conflicts it records.
-/

namespace Macha

open List OrdMap

def settledEntries (l r : Side) : NamespaceEntries :=
  tabulate (mergePaths l r) (settledAt l r)

def settledOrigins (l r : Side) : Origins := tabulate (mergePaths l r) (originAt l r)

@[simp] theorem settledEntries_getElem? (l r : Side) (p : ByteString) :
    (settledEntries l r)[p]? = settledAt l r p :=
  getElem?_tabulate_of_support (fun _ h => mem_mergePaths_of_settledAt h) p

@[simp] theorem settledOrigins_getElem? (l r : Side) (p : ByteString) :
    (settledOrigins l r)[p]? = originAt l r p :=
  getElem?_tabulate_of_support (fun _ h => mem_mergePaths_of_originAt h) p

/-- A file one head holds at `x` and the other at `y`, and nobody elsewhere. -/
structure JoinedPair (l r : Side) (x y : ByteString) (a b : FsEntry) : Prop where
  left : settledAt l r x = some a
  right : settledAt l r y = some b
  originLeft : originAt l r x = some .left
  originRight : originAt l r y = some .right
  type : a.type = b.type
  fileId_ne : a.provenance.fileId ≠ 0
  fileId : b.provenance.fileId = a.provenance.fileId
  only : ∀ q e, settledAt l r q = some e → e.provenance.fileId = a.provenance.fileId → q = x ∨ q = y

variable {p : ByteString}

theorem originAt_left_iff {l r : Side} : originAt l r p = some .left ↔
      ∃ a, l.entries[p]? = some a ∧ r.entries[p]? = none ∧ removed r l a = false := by
  unfold originAt
  cases hl : l.entries[p]? with
  | none =>
    cases hr : r.entries[p]? with
    | none => simp
    | some b => cases hrem : removed l r b <;> simp [hrem]
  | some a =>
    cases hr : r.entries[p]? with
    | none => cases hrem : removed r l a <;> simp [hrem]
    | some b => simp

theorem originAt_right_iff {l r : Side} :
    originAt l r p = some .right ↔ originAt r l p = some .left := by
  unfold originAt
  cases l.entries[p]? <;> cases r.entries[p]? <;> simp

namespace JoinedPair

variable {l r : Side} {x y : ByteString} {a b : FsEntry}

section

variable (h : JoinedPair l r x y a b)

include h

theorem leftEntry : l.entries[x]? = some a ∧ r.entries[x]? = none ∧ removed r l a = false := by
  obtain ⟨a', ha, hr, hrem⟩ := originAt_left_iff.1 h.originLeft
  have hleft := h.left
  simp only [settledAt, ha, hr, hrem, Bool.false_eq_true, if_false, Option.some.injEq] at hleft
  subst hleft
  exact ⟨ha, hr, hrem⟩

theorem rightEntry : r.entries[y]? = some b ∧ l.entries[y]? = none ∧ removed l r b = false := by
  obtain ⟨b', hb, hl, hrem⟩ := originAt_left_iff.1 (originAt_right_iff.1 h.originRight)
  have hright := h.right
  simp only [settledAt, hb, hl, hrem, Bool.false_eq_true, if_false, Option.some.injEq] at hright
  subst hright
  exact ⟨hb, hl, hrem⟩

theorem ne : x ≠ y := by
  rintro rfl
  have hx := h.originLeft
  simp [h.originRight] at hx

theorem swap : JoinedPair r l y x b a where
  left := by rw [settledAt_comm, h.right]
  right := by rw [settledAt_comm, h.left]
  originLeft := originAt_left_iff.2 ⟨b, h.rightEntry⟩
  originRight := originAt_right_iff.2 (originAt_left_iff.2 ⟨a, h.leftEntry⟩)
  type := h.type.symm
  fileId_ne := h.fileId ▸ h.fileId_ne
  fileId := h.fileId.symm
  only q e he hfile := by
    rw [settledAt_comm] at he
    exact (h.only q e he (hfile.trans h.fileId)).symm

end

end JoinedPair

theorem list_eq_pair {l : List ByteString} (hl : l.Nodup) {x y : ByteString} (hxy : x ≠ y)
    (hmem : ∀ q, q ∈ l ↔ q = x ∨ q = y) : l = [x, y] ∨ l = [y, x] := by
  have hperm : l.Perm [x, y] := (perm_ext_iff_of_nodup hl (by simp [hxy])).2 (by simp [hmem])
  exact perm_pair.1 hperm

theorem joinOf_settled {l r : Side} {id : NodeId} (hid : id ≠ 0) {j : Join} :
    joinOf l r (settledOrigins l r) (settledEntries l r) (pathsOf (settledEntries l r) id) =
        some j ↔
      ∃ x y a b, JoinedPair l r x y a b ∧ a.provenance.fileId = id ∧
        j = joinOfPair l r x y a b := by
  constructor
  · intro h
    obtain ⟨x, y, a, b, hpair, ha, hb, htype, rfl⟩ := joinOf_spec h
    obtain ⟨hgroup, hox, hoy⟩ := groupPair_spec hpair
    obtain ⟨hx, hy⟩ := groupPair_mem hpair
    obtain ⟨a', ha', hida⟩ := (mem_pathsOf _ _ _).1 hx
    obtain ⟨b', hb', hidb⟩ := (mem_pathsOf _ _ _).1 hy
    rw [settledEntries_getElem?] at ha hb ha' hb'
    rw [settledOrigins_getElem?] at hox hoy
    obtain rfl : a' = a := by simpa [ha] using ha'.symm
    obtain rfl : b' = b := by simpa [hb] using hb'.symm
    refine ⟨x, y, a', b', ⟨ha, hb, hox, hoy, htype, hida ▸ hid, hidb.trans hida.symm, ?_⟩,
      hida, rfl⟩
    intro q e he hfile
    have hq : q ∈ pathsOf (settledEntries l r) id :=
      (mem_pathsOf _ _ _).2 ⟨e, by rw [settledEntries_getElem?, he], hfile.trans hida⟩
    rcases hgroup with hgroup | hgroup <;> rw [hgroup] at hq <;> simp at hq
    · exact hq
    · exact hq.symm
  · rintro ⟨x, y, a, b, h, hida, rfl⟩
    have hmem : ∀ q, q ∈ pathsOf (settledEntries l r) id ↔ q = x ∨ q = y := by
      intro q
      rw [mem_pathsOf]
      constructor
      · rintro ⟨e, he, hfile⟩
        rw [settledEntries_getElem?] at he
        exact h.only q e he (hfile.trans hida.symm)
      · rintro (rfl | rfl)
        · exact ⟨a, by rw [settledEntries_getElem?, h.left], hida⟩
        · exact ⟨b, by rw [settledEntries_getElem?, h.right], h.fileId.trans hida⟩
    have hpair : groupPair (settledOrigins l r) (pathsOf (settledEntries l r) id) =
        some (x, y) := groupPair_of_origins
      (list_eq_pair (pathsOf_nodup _ _) h.ne hmem)
      (by rw [settledOrigins_getElem?, h.originLeft])
      (by rw [settledOrigins_getElem?, h.originRight])
    simp [joinOf, hpair, h.left, h.right, h.type]

def joinedEntries (l r : Side) : NamespaceEntries :=
  tabulate (mergePaths l r) (joinedAt l r (settledOrigins l r) (settledEntries l r))

theorem joinedEntries_getElem? (l r : Side) (p : ByteString) :
    (joinedEntries l r)[p]? = joinedAt l r (settledOrigins l r) (settledEntries l r) p := by
  refine getElem?_tabulate_of_support (fun q hq => ?_) p
  apply mem_mergePaths_of_settledAt
  cases h : settledAt l r q with
  | none => simp [joinedAt, h] at hq
  | some e => rfl

theorem joinedEntries_of_not_pair {l r : Side}
    (h : ∀ x y a b, JoinedPair l r x y a b → p ≠ x ∧ p ≠ y) :
    (joinedEntries l r)[p]? = settledAt l r p := by
  rw [joinedEntries_getElem?]
  unfold joinedAt
  rw [settledEntries_getElem?]
  cases he : settledAt l r p with
  | none => rfl
  | some e =>
    by_cases hid : e.provenance.fileId = 0
    · simp [hid]
    · simp only [hid, if_false]
      cases hj : joinOf l r (settledOrigins l r) (settledEntries l r)
          (pathsOf (settledEntries l r) e.provenance.fileId) with
      | none => simp [applyJoin, he]
      | some j =>
        obtain ⟨x, y, a, b, hpair, hida, -⟩ := (joinOf_settled hid).1 hj
        obtain ⟨hx, hy⟩ := h x y a b hpair
        rcases hpair.only p e he hida.symm with hp | hp
        · exact (hx hp).elim
        · exact (hy hp).elim

theorem joinOfPair_paths (l r : Side) (x y : ByteString) (a b : FsEntry) :
    ((joinOfPair l r x y a b).kept = x ∧ (joinOfPair l r x y a b).dropped = y) ∨
      ((joinOfPair l r x y a b).kept = y ∧ (joinOfPair l r x y a b).dropped = x) := by
  by_cases h : keepLeft l r a b <;> simp [joinOfPair, h]

theorem JoinedPair.joinedAt_eq {l r : Side} {x y p : ByteString} {a b : FsEntry}
    (h : JoinedPair l r x y a b) (hp : p = x ∨ p = y) :
    (joinedEntries l r)[p]? =
      (applyJoin (settledEntries l r) (some (joinOfPair l r x y a b)))[p]? := by
  have hjoin := (joinOf_settled h.fileId_ne).2 ⟨x, y, a, b, h, rfl, rfl⟩
  rw [joinedEntries_getElem?]
  unfold joinedAt
  rw [settledEntries_getElem?]
  rcases hp with rfl | rfl
  · simp only [h.left, if_neg h.fileId_ne, hjoin]
  · simp only [h.right, h.fileId, if_neg h.fileId_ne, hjoin]

theorem JoinedPair.kept {l r : Side} {x y : ByteString} {a b : FsEntry}
    (h : JoinedPair l r x y a b) :
    (joinedEntries l r)[(joinOfPair l r x y a b).kept]? = some (joinOfPair l r x y a b).merged := by
  have hp : (joinOfPair l r x y a b).kept = x ∨ (joinOfPair l r x y a b).kept = y :=
    (joinOfPair_paths l r x y a b).imp And.left And.left
  rw [h.joinedAt_eq hp]
  exact getElem?_insert_self _ _ _

theorem JoinedPair.dropped {l r : Side} {x y : ByteString} {a b : FsEntry}
    (h : JoinedPair l r x y a b) :
    (joinedEntries l r)[(joinOfPair l r x y a b).dropped]? = none := by
  have hp : (joinOfPair l r x y a b).dropped = x ∨ (joinOfPair l r x y a b).dropped = y :=
    (joinOfPair_paths l r x y a b).symm.imp And.right And.right
  have hne : (joinOfPair l r x y a b).kept ≠ (joinOfPair l r x y a b).dropped := by
    rcases joinOfPair_paths l r x y a b with ⟨hk, hd⟩ | ⟨hk, hd⟩ <;> rw [hk, hd]
    · exact h.ne
    · exact h.ne.symm
  rw [h.joinedAt_eq hp, applyJoin, getElem?_insert_of_ne _ _ hne, getElem?_erase, if_pos rfl]

theorem joinedEntries_of_both {l r : Side} {a b : FsEntry} (hl : l.entries[p]? = some a)
    (hr : r.entries[p]? = some b) :
    (joinedEntries l r)[p]? = settledAt l r p := by
  apply joinedEntries_of_not_pair
  intro x y a' b' h
  constructor
  · rintro rfl
    simp [h.leftEntry.2.1] at hr
  · rintro rfl
    simp [h.rightEntry.2.1] at hl

theorem settledAt_of_both {l r : Side} {a b : FsEntry} (hl : l.entries[p]? = some a)
    (hr : r.entries[p]? = some b) :
    settledAt l r p = some a ∨ settledAt l r p = some b := by
  unfold settledAt
  rw [hl, hr]
  by_cases hab : a = b
  · simp [hab]
  · rcases settleValue_fst_eq_or l r a b false with h | h <;> simp [hab, h]

theorem mem_mergePaths_of_joinedEntries {l r : Side} (h : (joinedEntries l r)[p]?.isSome) :
    p ∈ mergePaths l r := by
  unfold joinedEntries at h
  rw [getElem?_tabulate] at h
  by_contra hp
  simp [hp] at h

/-- Two directories settle to a directory, which no join moves. -/
theorem joinedEntries_keepsCommon (l r : Side) :
    KeepsCommonDirectories l r (joinedEntries l r) := by
  intro q hl hr
  obtain ⟨a, ha, hdira⟩ := (isDirectoryAt_iff _ _).1 hl
  obtain ⟨b, hb, hdirb⟩ := (isDirectoryAt_iff _ _).1 hr
  rw [isDirectoryAt_iff, joinedEntries_of_both ha hb]
  rcases settledAt_of_both ha hb with h | h
  · exact ⟨a, h, hdira⟩
  · exact ⟨b, h, hdirb⟩

theorem mem_settlePathsLog {l r : Side} {c : MetadataConflict} : c ∈ settlePathsLog l r ↔
      ∃ p a b, l.entries[p]? = some a ∧ r.entries[p]? = some b ∧ a ≠ b ∧
        c ∈ settleLog l r p a b false := by
  unfold settlePathsLog
  rw [mem_flatMap]
  constructor
  · rintro ⟨p, -, hc⟩
    unfold pathLog at hc
    split at hc
    · rename_i a b ha hb
      by_cases hab : a = b
      · simp [hab] at hc
      · rw [if_neg hab] at hc
        exact ⟨p, a, b, ha, hb, hab, hc⟩
    · simp at hc
  · rintro ⟨p, a, b, ha, hb, hab, hc⟩
    refine ⟨p, (mem_mergePaths l r p).2 (.inl (by simp [ha])), ?_⟩
    simpa [pathLog, ha, hb, hab] using hc

theorem mem_joinIdentitiesLog {l r : Side} {c : MetadataConflict} :
    c ∈ joinIdentitiesLog l r (settledOrigins l r) (settledEntries l r) ↔
      ∃ x y a b, JoinedPair l r x y a b ∧ c ∈ (joinOfPair l r x y a b).log := by
  unfold joinIdentitiesLog
  rw [mem_flatMap]
  constructor
  · rintro ⟨⟨id, group⟩, hg, hc⟩
    obtain ⟨hid, rfl⟩ := mem_byIdentity hg
    cases hj : joinOf l r (settledOrigins l r) (settledEntries l r)
        (pathsOf (settledEntries l r) id) with
    | none => simp [hj, joinLog] at hc
    | some j =>
      obtain ⟨x, y, a, b, hpair, -, rfl⟩ := (joinOf_settled hid).1 hj
      rw [hj] at hc
      exact ⟨x, y, a, b, hpair, hc⟩
  · rintro ⟨x, y, a, b, hpair, hc⟩
    have hat : (settledEntries l r)[x]? = some a := by rw [settledEntries_getElem?, hpair.left]
    refine ⟨_, exists_byIdentity hat hpair.fileId_ne, ?_⟩
    rw [(joinOf_settled hpair.fileId_ne).2 ⟨x, y, a, b, hpair, rfl, rfl⟩]
    exact hc

section

variable (metadataConflictId : MetadataConflict → ByteString)

def joinedLog (l r : Side) : List MetadataConflict :=
  settlePathsLog l r ++ joinIdentitiesLog l r (settledOrigins l r) (settledEntries l r)

theorem joinIdentities_settlePaths (l r : Side) :
    joinIdentities metadataConflictId l r (settlePaths metadataConflictId l r).2
        (settlePaths metadataConflictId l r).1 =
      (emplaceAll metadataConflictId (joinedLog l r) {}).setEntries (joinedEntries l r) := by
  have hst : settlePaths metadataConflictId l r =
      ((emplaceAll metadataConflictId (settlePathsLog l r) {}).setEntries (settledEntries l r),
        settledOrigins l r) := settlePaths_eq metadataConflictId l r
  rw [hst]
  obtain ⟨out, hrun, hout⟩ := joinIdentities_eq metadataConflictId l r (settledOrigins l r)
    ((emplaceAll metadataConflictId (settlePathsLog l r) {}).setEntries (settledEntries l r))
  have hjoined : out = joinedEntries l r :=
    OrdMap.ext fun p => (hout p).trans (joinedEntries_getElem? l r p).symm
  rw [hrun, hjoined]
  simp [joinedLog, emplaceAll_append, emplaceAll_setEntries]

/-- Two closed namespaces merge without a throw into a closed one: the joined
entries, with the directories over them put back. -/
theorem mergeNamespace_spec {l r : Side} (hl : Closed l.entries) (hr : Closed r.entries) :
    ∃ e log, mergeNamespace metadataConflictId l r =
        .ok ((emplaceAll metadataConflictId (joinedLog l r ++ log) {}).setEntries e) ∧
      Restores l r (Needed (joinedEntries l r)) (joinedEntries l r) e log ∧ Closed e := by
  obtain ⟨e, log, hrun, hrest, hclosed⟩ := ensureParents_restores metadataConflictId hl hr
    ((emplaceAll metadataConflictId (joinedLog l r) {}).setEntries (joinedEntries l r))
    (fun _ hp => mem_mergePaths_of_joinedEntries hp) (joinedEntries_keepsCommon l r)
  refine ⟨e, log, ?_, hrest, hclosed⟩
  unfold mergeNamespace
  have hjoin := joinIdentities_settlePaths metadataConflictId l r
  dsimp only
  rw [hjoin, hrun]
  simp [MergeState.advance, emplaceAll_append, emplaceAll_setEntries]

end

end Macha
