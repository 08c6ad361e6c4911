import Macha.Metadata.MergeNamespace

/-!
# What pruning the conflicts leaves

Pruning drops the records whose value has been decided since. It also puts the
agreed value of a record over a base in place, the one way in which it changes
an entry.
-/

namespace Macha

open List

/-- The value at `key` after one record: the agreed one, if the record stands
over the value and its alternatives agree. -/
def agreeAt (key : ByteString) (value : Option FsEntry) (conflict : MetadataConflict) :
    Option FsEntry :=
  if conflict.kind = .namespaceEntry ∧ conflict.key = key ∧
      value = conflictInstalledEntry conflict then
    (agreedOverBase conflict).or value
  else value

/-- The value at `key` after all records, in the order of their ids. -/
def agreedAt (conflicts : Conflicts) (key : ByteString) (value : Option FsEntry) : Option FsEntry :=
  conflicts.toList.foldl (fun value x => agreeAt key value x.2) value

variable {key : ByteString} {value : Option FsEntry}

/-- A record whose alternatives agree over a base moves the value it stands over. -/
structure MovesAt (key : ByteString) (value : Option FsEntry) (c : MetadataConflict)
    (w : FsEntry) : Prop where
  kind : c.kind = .namespaceEntry
  key_eq : c.key = key
  agreed : agreedOverBase c = some w
  installed : conflictInstalledEntry c = value
  moved : value ≠ some w

theorem agreeAt_cases (key : ByteString) (value : Option FsEntry) (c : MetadataConflict) :
    ((∀ w, ¬MovesAt key value c w) ∧ agreeAt key value c = value) ∨
      ∃ w, MovesAt key value c w ∧ agreeAt key value c = some w := by
  unfold agreeAt
  split
  · next hcond =>
    obtain ⟨hkind, hkey, hvalue⟩ := hcond
    cases hagreed : agreedOverBase c with
    | none => exact .inl ⟨fun w h => by simp [h.agreed] at hagreed, rfl⟩
    | some w =>
      by_cases hsame : value = some w
      · refine .inl ⟨fun w' h => h.moved ?_, hsame.symm⟩
        rw [hsame, ← hagreed, h.agreed]
      · exact .inr ⟨w, ⟨hkind, hkey, hagreed, hvalue.symm, hsame⟩, rfl⟩
  · next hcond =>
    exact .inl ⟨fun w h => hcond ⟨h.kind, h.key_eq, h.installed.symm⟩, rfl⟩

/-- Records in a row leave a value, or one of them leaves its own over it or over the value
another left. -/
theorem foldl_agreeAt_cases (items : List (ByteString × MetadataConflict)) (key : ByteString)
    (value : Option FsEntry) :
    ((∀ x ∈ items, ∀ w, ¬MovesAt key value x.2 w) ∧
        items.foldl (fun value x => agreeAt key value x.2) value = value) ∨
      (∃ x ∈ items, ∃ w, MovesAt key value x.2 w) ∧
        ∃ x ∈ items, ∃ w v, MovesAt key v x.2 w ∧
          items.foldl (fun value x => agreeAt key value x.2) value = some w ∧
          (v = value ∨ ∃ y ∈ items, ∃ w' v', MovesAt key v' y.2 w' ∧ v = some w') := by
  induction items generalizing value with
  | nil => exact .inl ⟨by simp, rfl⟩
  | cons x items ih =>
    rw [foldl_cons]
    rcases agreeAt_cases key value x.2 with ⟨hnot, hsame⟩ | ⟨w, hmoves, hout⟩
    · rw [hsame]
      rcases ih value with ⟨hall, hfold⟩ | ⟨⟨y, hy, hfirst⟩, z, hz, w, v, hmoves, hfold, hfrom⟩
      · refine .inl ⟨fun y hy => ?_, hfold⟩
        rcases mem_cons.1 hy with rfl | hy
        · exact hnot
        · exact hall y hy
      · refine .inr ⟨⟨y, mem_cons_of_mem x hy, hfirst⟩, z, mem_cons_of_mem x hz, w, v, hmoves,
          hfold, hfrom.imp_right ?_⟩
        exact fun ⟨y, hy, h⟩ => ⟨y, mem_cons_of_mem x hy, h⟩
    · rw [hout]
      refine .inr ⟨⟨x, mem_cons_self, w, hmoves⟩, ?_⟩
      rcases ih (some w) with ⟨-, hfold⟩ | ⟨-, z, hz, w', v, hmoves', hfold, hfrom⟩
      · exact ⟨x, mem_cons_self, w, value, hmoves, hfold, .inl rfl⟩
      · refine ⟨z, mem_cons_of_mem x hz, w', v, hmoves', hfold, .inr ?_⟩
        rcases hfrom with rfl | ⟨y, hy, h⟩
        · exact ⟨x, mem_cons_self, w, value, hmoves, rfl⟩
        · exact ⟨y, mem_cons_of_mem x hy, h⟩

variable {conflicts : Conflicts}

def RecordIn (conflicts : Conflicts) (c : MetadataConflict) : Prop :=
  ∃ id : ByteString, conflicts[id]? = some c

theorem recordIn_iff {c : MetadataConflict} :
    RecordIn conflicts c ↔ ∃ x ∈ conflicts.toList, x.2 = c := by
  constructor
  · exact fun ⟨id, hc⟩ => ⟨(id, c), (OrdMap.mem_toList _ _ _).2 hc, rfl⟩
  · rintro ⟨x, hx, rfl⟩
    exact ⟨x.1, (OrdMap.mem_toList _ _ _).1 hx⟩

theorem agreedAt_cases (conflicts : Conflicts) (key : ByteString) (value : Option FsEntry) :
    ((∀ c w, RecordIn conflicts c → ¬MovesAt key value c w) ∧
        agreedAt conflicts key value = value) ∨
      (∃ c w, RecordIn conflicts c ∧ MovesAt key value c w) ∧
        ∃ c w v, RecordIn conflicts c ∧ MovesAt key v c w ∧ agreedAt conflicts key value = some w ∧
          (v = value ∨ ∃ c' w' v', RecordIn conflicts c' ∧ MovesAt key v' c' w' ∧ v = some w') := by
  have hrec : ∀ x ∈ conflicts.toList, RecordIn conflicts x.2 :=
    fun x hx => recordIn_iff.2 ⟨x, hx, rfl⟩
  rcases foldl_agreeAt_cases conflicts.toList key value with
    ⟨hall, hfold⟩ | ⟨⟨x, hx, w, hfirst⟩, y, hy, w', v, hmoves, hfold, hfrom⟩
  · refine .inl ⟨fun c w hc => ?_, hfold⟩
    obtain ⟨x, hx, rfl⟩ := recordIn_iff.1 hc
    exact hall x hx w
  · refine .inr ⟨⟨x.2, w, hrec x hx, hfirst⟩, y.2, w', v, hrec y hy, hmoves, hfold,
      hfrom.imp_right ?_⟩
    exact fun ⟨z, hz, w, v', h, hv⟩ => ⟨z.2, w, v', hrec z hz, h, hv⟩

theorem agreedAt_of_quiet {key : ByteString} {value : Option FsEntry}
    (h : ∀ c w, RecordIn conflicts c → ¬MovesAt key value c w) :
    agreedAt conflicts key value = value := by
  rcases agreedAt_cases conflicts key value with ⟨-, hsame⟩ | ⟨⟨c, w, hc, hmoves⟩, -⟩
  · exact hsame
  · exact (h c w hc hmoves).elim

section

variable (catalogueRoot : Option ObjectId) (catalogueDot : MetadataDot)

theorem pruneConflict_entries (st : PruneState) (id : ByteString) (conflict : MetadataConflict)
    (key : ByteString) :
    (pruneConflict catalogueRoot catalogueDot st id conflict).entries[key]? =
      agreeAt key st.entries[key]? conflict := by
  unfold pruneConflict agreeAt
  cases conflict.kind with
  | catalogueRoot =>
    dsimp only
    split <;> simp
  | namespaceEntry =>
    by_cases hlive : st.entries[conflict.key]? = conflictInstalledEntry conflict
    · simp only [ne_eq, hlive, not_true_eq_false, if_false]
      cases hagreed : agreedOverBase conflict with
      | none => simp
      | some lesser =>
        by_cases hkey : conflict.key = key
        · subst hkey
          simp [hlive]
        · simp [hkey, OrdMap.getElem?_insert_of_ne _ _ hkey]
    · simp only [ne_eq, hlive, not_false_eq_true, if_true]
      by_cases hkey : conflict.key = key
      · subst hkey
        simp [hlive]
      · simp [hkey]

theorem foldl_pruneConflict_entries (items : List (ByteString × MetadataConflict))
    (st : PruneState) (key : ByteString) :
    (items.foldl (fun st (id, conflict) => pruneConflict catalogueRoot catalogueDot st id conflict)
        st).entries[key]? =
      items.foldl (fun value x => agreeAt key value x.2) st.entries[key]? := by
  induction items generalizing st with
  | nil => rfl
  | cons x items ih =>
    simp only [foldl_cons]
    rw [ih, pruneConflict_entries]

theorem prune_entries (entries : NamespaceEntries) (conflicts : Conflicts) (key : ByteString) :
    (pruneSupersededConflicts catalogueRoot catalogueDot entries conflicts).entries[key]? =
      agreedAt conflicts key entries[key]? :=
  foldl_pruneConflict_entries catalogueRoot catalogueDot conflicts.toList { entries, conflicts } key

/-- Whether the value a record installed is still the one in place. -/
def stands (entries : NamespaceEntries) (conflict : MetadataConflict) : Bool :=
  match conflict.kind with
  | .namespaceEntry => decide (entries[conflict.key]? = conflictInstalledEntry conflict)
  | .catalogueRoot =>
    decide (catalogueRoot = conflictInstalledCatalogueRoot conflict) &&
      (!conflict.laterInstalled || decide (catalogueDot = conflict.installedDot))

/-- Whether a record stays: it stands, and its alternatives do not agree. -/
def remains (entries : NamespaceEntries) (conflict : MetadataConflict) : Bool :=
  stands catalogueRoot catalogueDot entries conflict &&
    (decide (conflict.kind = .catalogueRoot) || (agreedOverBase conflict).isNone)

theorem pruneConflict_conflicts (st : PruneState) (id : ByteString) (conflict : MetadataConflict) :
    (pruneConflict catalogueRoot catalogueDot st id conflict).conflicts =
      if remains catalogueRoot catalogueDot st.entries conflict then st.conflicts
      else st.conflicts.erase id := by
  unfold pruneConflict remains stands
  cases conflict.kind with
  | namespaceEntry =>
    by_cases hlive : st.entries[conflict.key]? = conflictInstalledEntry conflict <;>
      cases hagreed : agreedOverBase conflict <;> simp [hlive]
  | catalogueRoot =>
    by_cases hroot : catalogueRoot = conflictInstalledCatalogueRoot conflict <;>
      cases hlater : conflict.laterInstalled <;>
        by_cases hdot : catalogueDot = conflict.installedDot <;> simp [hroot, hdot]

theorem pruneConflict_other (st : PruneState) {id id' : ByteString} (conflict : MetadataConflict)
    (hne : id' ≠ id) :
    (pruneConflict catalogueRoot catalogueDot st id' conflict).conflicts[id]? =
      st.conflicts[id]? := by
  rw [pruneConflict_conflicts]
  split
  · rfl
  · rw [OrdMap.getElem?_erase, if_neg hne]

theorem foldl_pruneConflict_other {items : List (ByteString × MetadataConflict)} {id : ByteString}
    (h : ∀ x ∈ items, x.1 ≠ id) (st : PruneState) :
    (items.foldl (fun st (id, conflict) => pruneConflict catalogueRoot catalogueDot st id conflict)
        st).conflicts[id]? = st.conflicts[id]? := by
  induction items generalizing st with
  | nil => rfl
  | cons x items ih =>
    rw [foldl_cons, ih fun y hy => h y (mem_cons_of_mem x hy)]
    exact pruneConflict_other _ _ st x.2 (h x mem_cons_self)

theorem mem_of_prune {entries : NamespaceEntries} {conflicts : Conflicts} {id : ByteString}
    {c : MetadataConflict} (h : (pruneSupersededConflicts catalogueRoot catalogueDot entries
      conflicts).conflicts[id]? = some c) : conflicts[id]? = some c := by
  unfold pruneSupersededConflicts at h
  suffices hall : ∀ (items : List (ByteString × MetadataConflict)) (st : PruneState),
      (items.foldl (fun st (id, conflict) => pruneConflict catalogueRoot catalogueDot st id
        conflict) st).conflicts[id]? = some c → st.conflicts[id]? = some c from hall _ _ h
  intro items
  induction items with
  | nil => exact fun _ h => h
  | cons x items ih =>
    intro st h
    have hc := ih _ h
    rw [pruneConflict_conflicts] at hc
    split at hc
    · exact hc
    · rw [OrdMap.getElem?_erase] at hc
      split at hc
      · simp at hc
      · exact hc

/-- A record over whose value no other stands goes exactly when it is decided. -/
theorem mem_prune_conflicts {entries : NamespaceEntries} {conflicts : Conflicts} {id : ByteString}
    {c : MetadataConflict} (hc : conflicts[id]? = some c)
    (hquiet : ∀ id' c' w, conflicts[id']? = some c' → id' ≠ id →
      ¬MovesAt c.key entries[c.key]? c' w) :
    (pruneSupersededConflicts catalogueRoot catalogueDot entries conflicts).conflicts[id]? =
        some c ↔ remains catalogueRoot catalogueDot entries c := by
  obtain ⟨before, after, hlist⟩ := append_of_mem ((OrdMap.mem_toList _ _ _).2 hc)
  have hdistinct := OrdMap.toList_pairwise_ne conflicts
  rw [hlist, pairwise_append, pairwise_cons] at hdistinct
  obtain ⟨-, ⟨hafter, -⟩, hbefore⟩ := hdistinct
  have hin : ∀ x ∈ before, conflicts[x.1]? = some x.2 ∧ x.1 ≠ id := by
    exact fun x hx => ⟨(OrdMap.mem_toList _ _ _).1 (hlist ▸ mem_append_left _ hx),
      hbefore x hx (id, c) mem_cons_self⟩
  have hrest : ∀ x ∈ after, x.1 ≠ id := fun x hx => (hafter x hx).symm
  unfold pruneSupersededConflicts
  rw [hlist, foldl_append, foldl_cons, foldl_pruneConflict_other _ _ hrest,
    pruneConflict_conflicts]
  -- what stands before the record neither erases it nor moves the value at its key
  have hkept := foldl_pruneConflict_other catalogueRoot catalogueDot (fun x hx => (hin x hx).2)
    { entries, conflicts }
  have hvalue := foldl_pruneConflict_entries catalogueRoot catalogueDot before
    { entries, conflicts } c.key
  rcases foldl_agreeAt_cases before c.key entries[c.key]? with ⟨-, hsame⟩ | ⟨⟨x, hx, w, hw⟩, -⟩
  · rw [hsame] at hvalue
    have hremains : ∀ st : PruneState, st.entries[c.key]? = entries[c.key]? →
        remains catalogueRoot catalogueDot st.entries c =
          remains catalogueRoot catalogueDot entries c := by
      intro st hst
      unfold remains stands
      rw [hst]
    rw [hremains _ hvalue]
    cases remains catalogueRoot catalogueDot entries c with
    | true => simpa using hkept.trans hc
    | false => simp
  · exact (hquiet x.1 x.2 w (hin x hx).1 (hin x hx).2 hw).elim

end

end Macha
