import Macha.Metadata.MergeSettle

/-!
# What joining the names of a file leaves

Each file identity owns its paths, so the groups the merge visits one after
another do not meet: what a group leaves at its paths is a function of the
settled entries.
-/

namespace Macha

open List Option OrdMap

variable (metadataConflictId : MetadataConflict → ByteString)

def pathsOf (entries : NamespaceEntries) (id : NodeId) : List ByteString :=
  (entries.toList.filter fun x => x.2.provenance.fileId = id).map Prod.fst

theorem mem_pathsOf (entries : NamespaceEntries) (id : NodeId) (path : ByteString) :
    path ∈ pathsOf entries id ↔
      ∃ entry, entries[path]? = some entry ∧ entry.provenance.fileId = id := by
  simp only [pathsOf, List.mem_map, mem_filter, decide_eq_true_eq, Prod.exists,
    exists_and_right, exists_eq_right, OrdMap.mem_toList]

theorem pathsOf_nodup (entries : NamespaceEntries) (id : NodeId) : (pathsOf entries id).Nodup := by
  unfold pathsOf
  rw [List.Nodup, pairwise_map]
  exact (toList_pairwise_ne entries).filter _

/-- A group with further paths; none is added by none. -/
def extendGroup (old : Option (List ByteString)) : List ByteString → Option (List ByteString)
  | [] => old
  | path :: paths => some (old.getD [] ++ path :: paths)

theorem extendGroup_cons (old : Option (List ByteString)) (path : ByteString)
    (paths : List ByteString) :
    extendGroup (some (old.getD [] ++ [path])) paths = extendGroup old (path :: paths) := by
  cases paths <;> simp [extendGroup]

theorem foldl_byIdentity (items : List (ByteString × FsEntry))
    (groups : OrdMap NodeId (List ByteString)) {id : NodeId} (hid : id ≠ 0) :
    (items.foldl (fun groups (path, entry) =>
        let id := entry.provenance.fileId
        if id = 0 then groups else groups.insert id (groups.getD id [] ++ [path])) groups)[id]? =
      extendGroup groups[id]?
        ((items.filter fun x => x.2.provenance.fileId = id).map Prod.fst) := by
  induction items generalizing groups with
  | nil => simp [extendGroup]
  | cons item items ih =>
    obtain ⟨path, entry⟩ := item
    rw [foldl_cons, ih]
    by_cases hmine : entry.provenance.fileId = id
    · subst hmine
      simp only [if_neg hid, OrdMap.getElem?_insert, if_true, filter_cons, decide_true,
        map_cons, Std.ExtTreeMap.getD_eq_getD_getElem?]
      exact extendGroup_cons _ path _
    · by_cases hzero : entry.provenance.fileId = 0
      · simp [hzero, Ne.symm hid]
      · simp [hzero, hmine, OrdMap.getElem?_insert]

theorem byIdentity_zero (entries : NamespaceEntries) : (byIdentity entries)[(0 : NodeId)]? = none := by
  have key : ∀ (items : List (ByteString × FsEntry)) (groups : OrdMap NodeId (List ByteString)),
      groups[(0 : NodeId)]? = none → (items.foldl (fun groups (path, entry) =>
        let id := entry.provenance.fileId
        if id = 0 then groups else groups.insert id (groups.getD id [] ++ [path]))
          groups)[(0 : NodeId)]? = none := by
    intro items
    induction items with
    | nil => exact fun _ h => h
    | cons item items ih =>
      intro groups h
      apply ih
      by_cases hzero : item.2.provenance.fileId = 0
      · simp [hzero, h]
      · simp [hzero, OrdMap.getElem?_insert, h]
  exact key _ ∅ (by simp)

variable {entries : NamespaceEntries} {group : List ByteString}

theorem mem_byIdentity {id : NodeId} (h : (id, group) ∈ (byIdentity entries).toList) :
    id ≠ 0 ∧ group = pathsOf entries id := by
  rw [OrdMap.mem_toList] at h
  have hid : id ≠ 0 := by
    rintro rfl
    simp [byIdentity_zero] at h
  refine ⟨hid, ?_⟩
  rw [byIdentity, foldl_byIdentity _ _ hid] at h
  change extendGroup _ (pathsOf entries id) = some group at h
  cases hpaths : pathsOf entries id with
  | nil => simp [hpaths, extendGroup] at h
  | cons p ps => simpa [hpaths, extendGroup] using h.symm

theorem exists_byIdentity {path : ByteString} {entry : FsEntry} (h : entries[path]? = some entry)
    (hid : entry.provenance.fileId ≠ 0) :
    (entry.provenance.fileId, pathsOf entries entry.provenance.fileId) ∈
      (byIdentity entries).toList := by
  rw [OrdMap.mem_toList, byIdentity, foldl_byIdentity _ _ hid]
  change extendGroup _ (pathsOf entries entry.provenance.fileId) = _
  cases hpaths : pathsOf entries entry.provenance.fileId with
  | nil =>
    have hmem : path ∈ pathsOf entries entry.provenance.fileId :=
      (mem_pathsOf _ _ _).2 ⟨entry, h, rfl⟩
    simp [hpaths] at hmem
  | cons p ps => simp [extendGroup]

/-- What joining a group does: the path kept, the one dropped, the entry left
and the conflicts recorded. -/
structure Join where
  kept : ByteString
  dropped : ByteString
  merged : FsEntry
  log : List MetadataConflict

/-- The file `x` of the left head and `y` of the right one, joined. -/
def joinOfPair (l r : Side) (x y : ByteString) (fromLeft fromRight : FsEntry) : Join :=
  let keep := keepLeft l r fromLeft fromRight
  let value := (settleValue l r fromLeft fromRight true).1
  let name := if keep then fromLeft.provenance.name else fromRight.provenance.name
  { kept := if keep then x else y
    dropped := if keep then y else x
    merged := { value with provenance := { value.provenance with name := name } }
    log := settleLog l r (if keep then x else y) fromLeft fromRight true }

/-- The left and the right path of a group that is joined. -/
def groupPair (origin : Origins) : List ByteString → Option (ByteString × ByteString)
  | [p, q] =>
    match origin[p]?, origin[q]? with
    | some .left, some .right => some (p, q)
    | some .right, some .left => some (q, p)
    | _, _ => none
  | _ => none

def joinOf (l r : Side) (origin : Origins) (entries : NamespaceEntries) (group : List ByteString) :
    Option Join :=
  match groupPair origin group with
  | none => none
  | some (x, y) =>
    match entries[x]?, entries[y]? with
    | some a, some b => if a.type ≠ b.type then none else some (joinOfPair l r x y a b)
    | _, _ => none

def applyJoin (entries : NamespaceEntries) : Option Join → NamespaceEntries
  | none => entries
  | some j => (entries.erase j.dropped).insert j.kept j.merged

def joinLog : Option Join → List MetadataConflict
  | none => []
  | some j => j.log

theorem joinNames_eq (l r : Side) (x y : ByteString) (st : MergeState) (a b : FsEntry)
    (hx : st.entries[x]? = some a) (hy : st.entries[y]? = some b) (htype : a.type = b.type) :
    joinNames metadataConflictId l r x y st =
      (emplaceAll metadataConflictId (joinOfPair l r x y a b).log st).setEntries
        (applyJoin st.entries (some (joinOfPair l r x y a b))) := by
  simp [joinNames, hx, hy, htype, settle_eq, joinOfPair, applyJoin, MergeState.setEntries]

theorem joinIdentity_eq (l r : Side) (origin : Origins) (st : MergeState)
    (group : List ByteString) :
    joinIdentity metadataConflictId l r origin st group =
      (emplaceAll metadataConflictId (joinLog (joinOf l r origin st.entries group)) st).setEntries
        (applyJoin st.entries (joinOf l r origin st.entries group)) := by
  have names : ∀ x y, joinNames metadataConflictId l r x y st =
      (emplaceAll metadataConflictId (joinLog (match st.entries[x]?, st.entries[y]? with
        | some a, some b => if a.type ≠ b.type then none else some (joinOfPair l r x y a b)
        | _, _ => none)) st).setEntries
        (applyJoin st.entries (match st.entries[x]?, st.entries[y]? with
        | some a, some b => if a.type ≠ b.type then none else some (joinOfPair l r x y a b)
        | _, _ => none)) := by
    intro x y
    cases hx : st.entries[x]? with
    | none => simp [joinNames, hx, joinLog, applyJoin]
    | some a =>
      cases hy : st.entries[y]? with
      | none => simp [joinNames, hx, hy, joinLog, applyJoin]
      | some b =>
        by_cases htype : a.type = b.type
        · rw [joinNames_eq metadataConflictId l r x y st a b hx hy htype]
          simp [htype, joinLog]
        · simp [joinNames, hx, hy, htype, joinLog, applyJoin]
  unfold joinIdentity joinOf groupPair
  rcases group with _ | ⟨p, _ | ⟨q, _ | ⟨_, _⟩⟩⟩
  · rfl
  · rfl
  · dsimp only
    cases hp : origin[p]? with
    | none => simp [joinLog, applyJoin]
    | some op =>
      cases hq : origin[q]? with
      | none => cases op <;> simp [joinLog, applyJoin]
      | some oq =>
        cases op <;> cases oq <;> first
          | exact names p q
          | exact names q p
          | simp [joinLog, applyJoin]
  · rfl

variable {origin : Origins} {x y : ByteString} {l r : Side}

theorem groupPair_spec (h : groupPair origin group = some (x, y)) :
    (group = [x, y] ∨ group = [y, x]) ∧ origin[x]? = some .left ∧ origin[y]? = some .right := by
  unfold groupPair at h
  rcases group with _ | ⟨p, _ | ⟨q, _ | ⟨_, _⟩⟩⟩
  · simp at h
  · simp at h
  · dsimp only at h
    split at h
    · obtain ⟨rfl, rfl⟩ := h
      simp_all
    · obtain ⟨rfl, rfl⟩ := h
      simp_all
    · simp at h
  · simp at h

theorem groupPair_of_origins (hgroup : group = [x, y] ∨ group = [y, x])
    (hx : origin[x]? = some .left) (hy : origin[y]? = some .right) :
    groupPair origin group = some (x, y) := by
  rcases hgroup with rfl | rfl <;> simp [groupPair, hx, hy]

theorem groupPair_mem (h : groupPair origin group = some (x, y)) : x ∈ group ∧ y ∈ group := by
  rcases (groupPair_spec h).1 with rfl | rfl <;> simp

theorem joinOf_spec {j : Join} (h : joinOf l r origin entries group = some j) :
    ∃ x y a b, groupPair origin group = some (x, y) ∧ entries[x]? = some a ∧
      entries[y]? = some b ∧ a.type = b.type ∧ j = joinOfPair l r x y a b := by
  unfold joinOf at h
  split at h
  · simp at h
  · rename_i x y hpair
    split at h
    · rename_i a b hx hy
      split at h
      · simp at h
      · rename_i htype
        simp only [some.injEq] at h
        exact ⟨x, y, a, b, hpair, hx, hy, not_not.1 htype, h.symm⟩
    · simp at h

theorem joinOf_mem {j : Join} (h : joinOf l r origin entries group = some j) :
    j.kept ∈ group ∧ j.dropped ∈ group := by
  obtain ⟨x, y, a, b, hpair, -, -, -, rfl⟩ := joinOf_spec h
  obtain ⟨hx, hy⟩ := groupPair_mem hpair
  by_cases hkeep : keepLeft l r a b <;> simp [joinOfPair, hkeep, hx, hy]

theorem joinOf_congr {entries entries' : NamespaceEntries}
    (h : ∀ p ∈ group, entries[p]? = entries'[p]?) :
    joinOf l r origin entries group = joinOf l r origin entries' group := by
  unfold joinOf
  cases hpair : groupPair origin group with
  | none => rfl
  | some pair =>
    obtain ⟨x, y⟩ := pair
    obtain ⟨hx, hy⟩ := groupPair_mem hpair
    simp only [h x hx, h y hy]

theorem applyJoin_of_notMem {entries e : NamespaceEntries} {p : ByteString} (hp : p ∉ group) :
    (applyJoin e (joinOf l r origin entries group))[p]? = e[p]? := by
  cases hj : joinOf l r origin entries group with
  | none => rfl
  | some j =>
    obtain ⟨hkept, hdropped⟩ := joinOf_mem hj
    have h₁ : j.kept ≠ p := fun h => hp (h ▸ hkept)
    have h₂ : j.dropped ≠ p := fun h => hp (h ▸ hdropped)
    simp [applyJoin, OrdMap.getElem?_insert, getElem?_erase, h₁, h₂]

def joinedAt (l r : Side) (origin : Origins) (entries : NamespaceEntries) (path : ByteString) :
    Option FsEntry :=
  match entries[path]? with
  | none => none
  | some entry =>
    if entry.provenance.fileId = 0 then some entry
    else
      (applyJoin entries
        (joinOf l r origin entries (pathsOf entries entry.provenance.fileId)))[path]?

theorem foldl_joinIdentity (l r : Side) (origin : Origins) (entries : NamespaceEntries)
    (groups : List (NodeId × List ByteString)) (st : MergeState)
    (hgroups : ∀ g ∈ groups, g.1 ≠ 0 ∧ g.2 = pathsOf entries g.1)
    (hdistinct : groups.Pairwise fun g g' => g.1 ≠ g'.1)
    (hst : ∀ (p : ByteString) e, entries[p]? = some e → (∃ g ∈ groups, e.provenance.fileId = g.1) →
      st.entries[p]? = some e) :
    ∃ out : NamespaceEntries,
      groups.foldl (fun st group => joinIdentity metadataConflictId l r origin st group.2) st =
        (emplaceAll metadataConflictId
          (groups.flatMap fun g => joinLog (joinOf l r origin entries g.2)) st).setEntries out ∧
      ∀ p : ByteString, (∀ e : FsEntry, entries[p]? = some e →
          (∃ g ∈ groups, e.provenance.fileId = g.1) → out[p]? = joinedAt l r origin entries p) ∧
        ((∀ e : FsEntry, entries[p]? = some e → ∀ g ∈ groups, e.provenance.fileId ≠ g.1) →
          out[p]? = st.entries[p]?) := by
  induction groups generalizing st with
  | nil => exact ⟨st.entries, rfl, fun p => ⟨by simp, fun _ => rfl⟩⟩
  | cons g groups ih =>
    obtain ⟨hid, hpaths⟩ := hgroups g mem_cons_self
    have hagree : ∀ p ∈ g.2, st.entries[p]? = entries[p]? := by
      intro p hp
      rw [hpaths] at hp
      obtain ⟨e, he, hfile⟩ := (mem_pathsOf _ _ _).1 hp
      rw [he]
      exact hst p e he ⟨g, mem_cons_self, hfile⟩
    have hjoin : joinOf l r origin st.entries g.2 = joinOf l r origin entries g.2 :=
      joinOf_congr hagree
    let e' := applyJoin st.entries (joinOf l r origin entries g.2)
    let st' := (emplaceAll metadataConflictId (joinLog (joinOf l r origin entries g.2))
      st).setEntries e'
    have hstep : joinIdentity metadataConflictId l r origin st g.2 = st' := by
      rw [joinIdentity_eq, hjoin]
    have hother : ∀ (p : ByteString) e, entries[p]? = some e →
        e.provenance.fileId ≠ g.1 →
        e'[p]? = st.entries[p]? := by
      intro p e he hne
      apply applyJoin_of_notMem
      rw [hpaths, mem_pathsOf]
      rintro ⟨e₂, he₂, hfile⟩
      rw [he, some.injEq] at he₂
      exact hne (he₂ ▸ hfile)
    obtain ⟨hhead, htail⟩ := pairwise_cons.1 hdistinct
    obtain ⟨out, hfold, hout⟩ := ih st'
      (fun g' hg' => hgroups g' (mem_cons_of_mem g hg')) htail (by
        rintro p e he ⟨g', hg', hfile⟩
        have hne : e.provenance.fileId ≠ g.1 := fun h => hhead g' hg' (h.symm.trans hfile)
        exact (hother p e he hne).trans (hst p e he ⟨g', mem_cons_of_mem g hg', hfile⟩))
    refine ⟨out, ?_, fun p => ⟨?_, ?_⟩⟩
    · rw [foldl_cons, hstep, hfold, flatMap_cons, emplaceAll_append]
      simp only [st', emplaceAll_setEntries, MergeState.setEntries_setEntries]
    · rintro e he ⟨g', hg', hfile⟩
      rcases mem_cons.1 hg' with rfl | hg'
      · have hrest : ∀ e₂ : FsEntry, entries[p]? = some e₂ → ∀ g₂ ∈ groups,
            e₂.provenance.fileId ≠ g₂.1 := by
          intro e₂ he₂ g₂ hg₂ h
          rw [he, some.injEq] at he₂
          exact hhead g₂ hg₂ (hfile.symm.trans (he₂ ▸ h))
        rw [(hout p).2 hrest]
        have hnz : e.provenance.fileId ≠ 0 := hfile ▸ hid
        simp only [joinedAt, he, if_neg hnz]
        rw [hfile, ← hpaths]
        change e'[p]? = _
        cases hj : joinOf l r origin entries g'.2 with
        | none => simp [e', hj, applyJoin, he, hst p e he ⟨g', mem_cons_self, hfile⟩]
        | some j =>
          simp only [e', hj, applyJoin, OrdMap.getElem?_insert, getElem?_erase, he,
            hst p e he ⟨g', mem_cons_self, hfile⟩]
      · exact (hout p).1 e he ⟨g', hg', hfile⟩
    · intro hnone
      rw [(hout p).2 fun e he g' hg' => hnone e he g' (mem_cons_of_mem g hg')]
      cases he : entries[p]? with
      | some e => exact hother p e he (hnone e he g mem_cons_self)
      | none =>
        apply applyJoin_of_notMem
        rw [hpaths, mem_pathsOf]
        rintro ⟨e, hsome, -⟩
        simp [he] at hsome

/-- The conflicts joining records, in the order of the identities. -/
def joinIdentitiesLog (l r : Side) (origin : Origins) (entries : NamespaceEntries) :
    List MetadataConflict :=
  (byIdentity entries).toList.flatMap fun g => joinLog (joinOf l r origin entries g.2)

theorem joinIdentities_eq (l r : Side) (origin : Origins) (st : MergeState) :
    ∃ out : NamespaceEntries, joinIdentities metadataConflictId l r origin st =
        (emplaceAll metadataConflictId (joinIdentitiesLog l r origin st.entries) st).setEntries
          out ∧
      ∀ p : ByteString, out[p]? = joinedAt l r origin st.entries p := by
  obtain ⟨out, hfold, hout⟩ := foldl_joinIdentity metadataConflictId l r origin st.entries
    (byIdentity st.entries).toList st (fun _ hg => mem_byIdentity hg)
    (toList_pairwise_ne _) (fun p e he _ => he)
  refine ⟨out, hfold, fun p => ?_⟩
  cases he : st.entries[p]? with
  | none =>
    rw [(hout p).2 (by simp [he]), he]
    simp [joinedAt, he]
  | some e =>
    by_cases hid : e.provenance.fileId = 0
    · have hnone : ∀ e₂ : FsEntry, st.entries[p]? = some e₂ → ∀ g ∈ (byIdentity st.entries).toList,
          e₂.provenance.fileId ≠ g.1 := by
        intro e₂ he₂ g hg h
        rw [he, some.injEq] at he₂
        exact (mem_byIdentity hg).1 (h.symm.trans (he₂ ▸ hid))
      rw [(hout p).2 hnone]
      simp [joinedAt, he, hid]
    · exact (hout p).1 e he ⟨_, exists_byIdentity he hid, rfl⟩

end Macha
