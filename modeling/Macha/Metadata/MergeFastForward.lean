import Macha.Metadata.ConflictCode
import Macha.Metadata.MergeSide
import Macha.Metadata.Mutation

/-!
# Merging a head with one reached from it

The head ahead has seen everything the head behind holds, and what it wrote the
other has not seen. The merge is then the head ahead, but for one tie: of two
entries that differ in provenance only the greater provenance stands, whoever
has seen it.
-/

namespace Macha

/-- A head whose clock covers every dot of its entries and every mutation that
may have written an entry without one. -/
structure CoversOwnDots (s : MetadataSnapshot) : Prop where
  content : ∀ (p : ByteString) (e : FsEntry), s.entries[p]? = some e →
    e.provenance.content.isSet → clockCovers s.mutationSequences e.provenance.content
  name : ∀ (p : ByteString) (e : FsEntry), s.entries[p]? = some e →
    e.provenance.name.isSet → clockCovers s.mutationSequences e.provenance.name
  legacy : clockCoversClock s.mutationSequences (s.legacyClock.getD s.mutationSequences)

instance (s : MetadataSnapshot) : Decidable (CoversOwnDots s) :=
  decidable_of_iff
    ((∀ x ∈ s.entries.toList, (x.2.provenance.content.isSet →
        clockCovers s.mutationSequences x.2.provenance.content) ∧
      (x.2.provenance.name.isSet → clockCovers s.mutationSequences x.2.provenance.name)) ∧
      clockCoversClock s.mutationSequences (s.legacyClock.getD s.mutationSequences))
    ⟨fun ⟨hall, hlegacy⟩ =>
      ⟨fun p e he => (hall (p, e) ((OrdMap.mem_toList _ _ _).2 he)).1,
        fun p e he => (hall (p, e) ((OrdMap.mem_toList _ _ _).2 he)).2, hlegacy⟩,
      fun h => ⟨fun x hx => ⟨h.content x.1 x.2 ((OrdMap.mem_toList _ _ _).1 hx),
        h.name x.1 x.2 ((OrdMap.mem_toList _ _ _).1 hx)⟩, h.legacy⟩⟩

/-- `n` has seen all of `o`, and what it holds beyond `o` is unseen there. -/
structure Ahead (o n : Side) : Prop where
  contentSeen : ∀ (p : ByteString) (a : FsEntry), o.entries[p]? = some a → contentSeen n o a
  nameSeen : ∀ (p : ByteString) (a : FsEntry), o.entries[p]? = some a → nameSeen n o a
  unseen : ∀ (p : ByteString) (b : FsEntry), n.entries[p]? = some b → o.entries[p]? ≠ some b →
    Unseen o.clock b

theorem ahead_of_reached {h s : MetadataSnapshot} (hcov : CoversOwnDots h) (hreach : Reached h s) :
    Ahead (sideOf h) (sideOf s) where
  contentSeen p a ha := by
    unfold Macha.contentSeen
    split
    · rename_i hset
      exact clockCovers_mono hreach.clock (hcov.content p a ha hset)
    · exact clockCoversClock_trans hreach.clock hcov.legacy
  nameSeen p a ha := by
    unfold Macha.nameSeen
    split
    · rename_i hset
      exact clockCovers_mono hreach.clock (hcov.name p a ha hset)
    · exact clockCoversClock_trans hreach.clock hcov.legacy
  unseen p b hb hne := (hreach.entries p b hb).resolve_left hne

theorem not_seen_of_unseen {viewer : Side} (owner : Side) {e : FsEntry}
    (h : Unseen viewer.clock e) :
    (contentSeen viewer owner e && nameSeen viewer owner e) = false := by
  rcases h with ⟨hset, hcov⟩ | ⟨hset, hcov⟩
  · simp [contentSeen, hset, hcov]
  · simp [nameSeen, hset, hcov]

theorem removed_of_unseen {viewer owner : Side} {e : FsEntry} (h : Unseen viewer.clock e) :
    removed viewer owner e = false := by
  have hnonempty : e.provenance.empty = false := by
    rcases h with ⟨hset, -⟩ | ⟨hset, -⟩ <;> simp [EntryProvenance.empty, hset]
  have hseen := not_seen_of_unseen owner h
  rw [Bool.and_comm] at hseen
  simp [removed, hnonempty, hseen]

variable {o n l r : Side} {a b : FsEntry} {p : ByteString}

section

variable (h : Ahead o n)

include h

theorem Ahead.removed (ha : o.entries[p]? = some a) : removed n o a := by
  unfold Macha.removed
  split
  · rename_i hempty
    have hunset : a.provenance.content.isSet = false := by
      simp only [EntryProvenance.empty, Bool.and_eq_true, Bool.not_eq_true'] at hempty
      exact hempty.1.2
    simpa [Macha.contentSeen, hunset] using h.contentSeen p a ha
  · simp [h.nameSeen p a ha, h.contentSeen p a ha]

/-- The entry a merge of the two heads settles on: the one ahead, unless the two
are equal but for a lesser provenance ahead. -/
def fastForwardAt (o n : NamespaceEntries) (p : ByteString) : Option FsEntry :=
  match o[p]?, n[p]? with
  | some a, some b =>
    if withoutProvenance a = withoutProvenance b ∧ b.provenance < a.provenance then some a
    else some b
  | _, value => value

theorem Ahead.settleValue_left (ha : o.entries[p]? = some a) (hb : n.entries[p]? = some b)
    (hab : a ≠ b) :
    settleValue o n a b false =
      (if withoutProvenance a = withoutProvenance b ∧ b.provenance < a.provenance then a else b,
        none) := by
  have hseen := not_seen_of_unseen n
    (h.unseen p b hb (by rw [ha]; simpa using hab))
  by_cases hsame : withoutProvenance a = withoutProvenance b
  · have hne : a.provenance ≠ b.provenance := fun hp => hab (eq_of_withoutProvenance hsame hp)
    rcases lt_or_gt_of_ne hne with hlt | hlt
    · simp [settleValue, hsame, hlt, hlt.not_gt]
    · simp [settleValue, hsame, hlt, hlt.not_gt]
  · simp [settleValue, hsame, h.contentSeen p a ha, h.nameSeen p a ha, hseen]

theorem Ahead.settleValue_right (ha : o.entries[p]? = some a) (hb : n.entries[p]? = some b)
    (hab : a ≠ b) :
    settleValue n o b a false =
      (if withoutProvenance a = withoutProvenance b ∧ b.provenance < a.provenance then a else b,
        none) := by
  have hseen := not_seen_of_unseen n
    (h.unseen p b hb (by rw [ha]; simpa using hab))
  by_cases hsame : withoutProvenance b = withoutProvenance a
  · simp [settleValue, hsame]
  · have hsame' : ¬withoutProvenance a = withoutProvenance b := fun h => hsame h.symm
    simp [settleValue, hsame, hsame', h.contentSeen p a ha, h.nameSeen p a ha, hseen]

section

variable (hside : l = o ∧ r = n ∨ l = n ∧ r = o)

include hside

/-- Either way round, settling leaves the head ahead but for the ties. -/
theorem Ahead.settledAt (p : ByteString) :
    settledAt l r p = fastForwardAt o.entries n.entries p := by
  unfold Macha.settledAt fastForwardAt
  cases ho : o.entries[p]? with
  | none =>
    cases hn : n.entries[p]? with
    | none => rcases hside with ⟨rfl, rfl⟩ | ⟨rfl, rfl⟩ <;> simp [ho, hn]
    | some b =>
      have hkept : Macha.removed o n b = false :=
        removed_of_unseen (h.unseen p b hn (by simp [ho]))
      rcases hside with ⟨rfl, rfl⟩ | ⟨rfl, rfl⟩ <;> simp [ho, hn, hkept]
  | some a =>
    cases hn : n.entries[p]? with
    | none =>
      have hgone := h.removed ho
      rcases hside with ⟨rfl, rfl⟩ | ⟨rfl, rfl⟩ <;> simp [ho, hn, hgone]
    | some b =>
      by_cases hab : a = b
      · rcases hside with ⟨rfl, rfl⟩ | ⟨rfl, rfl⟩ <;> simp [ho, hn, hab]
      · have hba : ¬b = a := fun h => hab h.symm
        rcases hside with ⟨rfl, rfl⟩ | ⟨rfl, rfl⟩
        · simp only [ho, hn, if_neg hab, h.settleValue_left ho hn hab]
          split <;> rfl
        · simp only [ho, hn, if_neg hba, h.settleValue_right ho hn hab]
          split <;> rfl

theorem Ahead.settlePathsLog : settlePathsLog l r = [] := by
  rw [List.eq_nil_iff_forall_not_mem]
  intro c hc
  rcases mem_settlePathsLog.1 hc with ⟨p, a, b, ha, hb, hab, hc⟩
  unfold settleLog at hc
  rcases hside with ⟨rfl, rfl⟩ | ⟨rfl, rfl⟩
  · simp [h.settleValue_left ha hb hab] at hc
  · simp [h.settleValue_right hb ha (Ne.symm hab)] at hc

theorem Ahead.no_pair {x y : ByteString} : ¬JoinedPair l r x y a b := by
  intro hpair
  rcases hside with ⟨rfl, rfl⟩ | ⟨rfl, rfl⟩
  · rcases hpair.leftEntry with ⟨ha, -, hkept⟩
    simp [h.removed ha] at hkept
  · rcases hpair.rightEntry with ⟨hb, -, hkept⟩
    simp [h.removed hb] at hkept

end

end

theorem withoutProvenance_isDirectory (h : withoutProvenance a = withoutProvenance b) :
    a.isDirectory = b.isDirectory := by
  have htype : (withoutProvenance a).type = (withoutProvenance b).type := by rw [h]
  have htype' : a.type = b.type := htype
  simp [FsEntry.isDirectory, htype']

theorem fastForward_closed {o n out : NamespaceEntries} (hclosed : Closed n)
    (hout : ∀ p : ByteString, out[p]? = fastForwardAt o n p) : Closed out := by
  have hdir : ∀ p, isDirectoryAt out p = isDirectoryAt n p := by
    intro p
    unfold isDirectoryAt
    rw [hout]
    unfold fastForwardAt
    cases o[p]? with
    | none => rfl
    | some a =>
      cases n[p]? with
      | none => rfl
      | some b =>
        by_cases htie : withoutProvenance a = withoutProvenance b ∧ b.provenance < a.provenance
        · simp [htie, withoutProvenance_isDirectory htie.1]
        · simp [htie]
  have hsome : ∀ p : ByteString, out[p]?.isSome → n[p]?.isSome := by
    intro p
    rw [hout]
    unfold fastForwardAt
    cases o[p]? <;> cases n[p]? <;> simp
  exact ⟨by rw [hdir]; exact hclosed.root, fun p hp => by rw [hdir]; exact hclosed.parent p (hsome p hp)⟩

theorem Ahead.mergeOrdered (h : Ahead o n) (hside : l = o ∧ r = n ∨ l = n ∧ r = o)
    (ho : Closed o.entries) (hn : Closed n.entries)
    (hcatalogue : o.snapshot.catalogueRoot = n.snapshot.catalogueRoot)
    (hconflicts : ∀ (id : ByteString) (c : MetadataConflict),
      n.snapshot.conflicts[id]? = some c → o.snapshot.conflicts[id]? = some c)
    (metadataConflictId : MetadataConflict → ByteString) (leftHead rightHead : Hash256) :
    ∃ result, mergeOrdered metadataConflictId l r leftHead rightHead = .ok result ∧
      result.conflictsCreated = 0 ∧
      ∀ p : ByteString, result.snapshot.entries[p]? =
        agreedAt o.snapshot.conflicts p (fastForwardAt o.entries n.entries p) := by
  have hl : Closed l.entries := by rcases hside with ⟨rfl, rfl⟩ | ⟨rfl, rfl⟩ <;> assumption
  have hr : Closed r.entries := by rcases hside with ⟨rfl, rfl⟩ | ⟨rfl, rfl⟩ <;> assumption
  have hjoined : ∀ p : ByteString, (joinedEntries l r)[p]? =
      fastForwardAt o.entries n.entries p := by
    intro p
    rw [joinedEntries_of_not_pair fun x y a b hpair => (h.no_pair hside hpair).elim,
      h.settledAt hside]
  rcases mergeOrdered_eq metadataConflictId hl hr leftHead rightHead with
    ⟨e, restored, hrun, hrest, -⟩
  rcases hrest.eq_of_closed (fastForward_closed hn hjoined) with ⟨rfl, rfl⟩
  have hlog : createdLog l r leftHead rightHead [] = [] := by
    have hnames : joinIdentitiesLog l r (settledOrigins l r) (settledEntries l r) = [] := by
      rw [List.eq_nil_iff_forall_not_mem]
      intro c hc
      rcases mem_joinIdentitiesLog.1 hc with ⟨x, y, a, b, hpair, -⟩
      exact h.no_pair hside hpair
    have hroot : l.snapshot.catalogueRoot = r.snapshot.catalogueRoot := by
      rcases hside with ⟨rfl, rfl⟩ | ⟨rfl, rfl⟩
      · exact hcatalogue
      · exact hcatalogue.symm
    simp [createdLog, joinedLog, h.settlePathsLog hside, hnames, catalogueLog, hroot]
  have hstanding : unprunedConflicts metadataConflictId l r leftHead rightHead [] =
      o.snapshot.conflicts := by
    apply OrdMap.ext
    intro id
    rw [unprunedConflicts_getElem?, hlog]
    simp only [emplaceAll_nil, Std.ExtTreeMap.getElem?_empty, Option.none_or]
    cases hnc : n.snapshot.conflicts[id]? with
    | none => rcases hside with ⟨rfl, rfl⟩ | ⟨rfl, rfl⟩ <;> simp [hnc]
    | some c =>
      have hoc := hconflicts id c hnc
      rcases hside with ⟨rfl, rfl⟩ | ⟨rfl, rfl⟩ <;> simp [hnc, hoc]
  refine ⟨_, hrun, ?_, fun p => ?_⟩
  · simp [mergedResult, hlog]
  · rw [mergedResult_entries, hstanding, hjoined]

/-- Where the two heads hold one entry but for its provenance, the provenance
ahead is not the lesser. -/
def TieKept (o n : NamespaceEntries) (p : ByteString) : Prop :=
  ∀ a b, o[p]? = some a → n[p]? = some b →
    withoutProvenance a = withoutProvenance b → ¬b.provenance < a.provenance

def TiesKept (o n : NamespaceEntries) : Prop :=
  ∀ p, TieKept o n p

instance (o n : NamespaceEntries) : Decidable (TiesKept o n) :=
  decidable_of_iff
    (∀ x ∈ o.toList, ∀ y ∈ n.toList, x.1 = y.1 →
      withoutProvenance x.2 = withoutProvenance y.2 → ¬y.2.provenance < x.2.provenance)
    ⟨fun h p a b ha hb =>
      h (p, a) ((OrdMap.mem_toList _ _ _).2 ha) (p, b) ((OrdMap.mem_toList _ _ _).2 hb) rfl,
      fun h x hx y hy hkey => h x.1 x.2 y.2 ((OrdMap.mem_toList _ _ _).1 hx)
        ((OrdMap.mem_toList _ _ _).1 (hkey ▸ hy))⟩

theorem fastForwardAt_eq_iff (o n : NamespaceEntries) (p : ByteString) :
    fastForwardAt o n p = n[p]? ↔ TieKept o n p := by
  constructor
  · intro hp a b ha hb hsame hlt
    simp only [fastForwardAt, ha, hb, hsame, hlt, and_self, if_true, Option.some.injEq] at hp
    rw [hp] at hlt
    exact lt_irrefl _ hlt
  · intro h
    unfold fastForwardAt
    cases ha : o[p]? with
    | none => rfl
    | some a =>
      cases hb : n[p]? with
      | none => rfl
      | some b =>
        have hnot : ¬(withoutProvenance a = withoutProvenance b ∧
            b.provenance < a.provenance) := fun ⟨hsame, hlt⟩ => h a b ha hb hsame hlt
        simp [hnot]

theorem fastForwardAt_eq_or (o n : NamespaceEntries) (p : ByteString) :
    fastForwardAt o n p = o[p]? ∨ fastForwardAt o n p = n[p]? := by
  unfold fastForwardAt
  cases o[p]? <;> cases n[p]? <;> simp only [or_true]
  split
  · exact .inl rfl
  · exact .inr rfl

/-- No record moves a value a head holds at its key. -/
def Unmoved (conflicts : Conflicts) (entries : NamespaceEntries) : Prop :=
  ∀ c w, RecordIn conflicts c → ¬MovesAt c.key entries[c.key]? c w

/-- Each path has one record at most that moves a value. -/
def OneMover (conflicts : Conflicts) : Prop :=
  ∀ key c w v c' w' v', RecordIn conflicts c → MovesAt key v c w → RecordIn conflicts c' →
    MovesAt key v' c' w' → c' = c

/-- At each path the tie goes to the head ahead and no record moves what it holds,
or a record moves what the head behind holds there to it. -/
def Forwarded (conflicts : Conflicts) (o n : NamespaceEntries) : Prop :=
  ∀ p : ByteString, (TieKept o n p ∧ ∀ c w, RecordIn conflicts c → ¬MovesAt p n[p]? c w) ∨
    ∃ c w, RecordIn conflicts c ∧ MovesAt p o[p]? c w ∧ n[p]? = some w

section

variable {conflicts : Conflicts} {entries o n : NamespaceEntries}

theorem agreedAt_of_unmoved (h : Unmoved conflicts entries) (p : ByteString) :
    agreedAt conflicts p entries[p]? = entries[p]? :=
  agreedAt_of_quiet fun c w hc hmoves => h c w hc (by rw [hmoves.key_eq]; exact hmoves)

variable (hone : OneMover conflicts)

include hone

theorem agreedAt_eq_iff {p : ByteString} {value target : Option FsEntry} :
    agreedAt conflicts p value = target ↔
      (value = target ∧ ∀ c w, RecordIn conflicts c → ¬MovesAt p value c w) ∨
        ∃ c w, RecordIn conflicts c ∧ MovesAt p value c w ∧ target = some w := by
  rcases agreedAt_cases conflicts p value with
    ⟨hall, hout⟩ | ⟨⟨c, w, hc, hmoves⟩, c', w', v, hc', hmoves', hout, -⟩
  · rw [hout]
    refine ⟨fun heq => .inl ⟨heq, hall⟩, fun hor => ?_⟩
    rcases hor with ⟨heq, -⟩ | ⟨c, w, hc, hmoves, -⟩
    · exact heq
    · exact (hall c w hc hmoves).elim
  · obtain rfl := hone p c w _ c' w' v hc hmoves hc' hmoves'
    rw [hout, ← hmoves'.agreed, hmoves.agreed]
    clear hc' hmoves' hout
    refine ⟨fun heq => .inr ⟨_, w, hc, hmoves, heq.symm⟩, fun hor => ?_⟩
    rcases hor with ⟨-, hall⟩ | ⟨c', w', hc', hmoves', htarget⟩
    · exact (hall _ w hc hmoves).elim
    · obtain rfl := hone p _ w _ c' w' _ hc hmoves hc' hmoves'
      rw [htarget, ← hmoves.agreed, hmoves'.agreed]

theorem forwarded_iff :
    (∀ p : ByteString, agreedAt conflicts p (fastForwardAt o n p) = n[p]?) ↔
      Forwarded conflicts o n := by
  refine forall_congr' fun p => ?_
  rw [agreedAt_eq_iff hone]
  by_cases hkept : TieKept o n p
  · rw [(fastForwardAt_eq_iff o n p).2 hkept]
    constructor
    · rintro (⟨-, hquiet⟩ | ⟨c, w, -, hmoves, hw⟩)
      · exact .inl ⟨hkept, hquiet⟩
      · exact (hmoves.moved hw).elim
    · rintro (⟨-, hquiet⟩ | ⟨c, w, hc, hmoves, hw⟩)
      · exact .inl ⟨rfl, hquiet⟩
      · refine .inl ⟨rfl, fun c' w' hc' hmoves' => ?_⟩
        -- one record cannot stand over both heads' values
        obtain rfl := hone p c w _ c' w' _ hc hmoves hc' hmoves'
        exact hmoves.moved (hmoves.installed.symm.trans (hmoves'.installed.trans hw))
  · have hne : fastForwardAt o n p ≠ n[p]? := mt (fastForwardAt_eq_iff o n p).1 hkept
    have heq := (fastForwardAt_eq_or o n p).resolve_right hne
    rw [heq] at hne ⊢
    simp [hne, hkept]

end

/-- A merge of a head with one reached from it creates no conflict. It yields the
namespace of the head ahead where no tie goes against it and no record moves what
that head holds; with one such record for a path, exactly where each path is
forwarded. -/
theorem mergeMetadataHeads_fastForward (metadataConflictId : MetadataConflict → ByteString)
    (legacyFileId : ByteString → NodeId) {author : NodeId} {h h' : MetadataSnapshot}
    (run : FastForward legacyFileId author h h') (hcov : CoversOwnDots h)
    (hmap : h.namespaceRoot = none) (hclosed : Closed h.entries) (hclosed' : Closed h'.entries)
    (leftHead rightHead : Hash256) (hhash : leftHead = rightHead → h' = h) :
    ∃ result, mergeMetadataHeads metadataConflictId h h' leftHead rightHead = .ok result ∧
      result.conflictsCreated = 0 ∧
      (Unmoved h.conflicts h.entries → Unmoved h.conflicts h'.entries →
        (result.snapshot.entries = h'.entries ↔ TiesKept h.entries h'.entries)) ∧
      (leftHead ≠ rightHead →
        (TiesKept h.entries h'.entries → Unmoved h.conflicts h'.entries →
          result.snapshot.entries = h'.entries) ∧
        (OneMover h.conflicts → (result.snapshot.entries = h'.entries ↔
          Forwarded h.conflicts h.entries h'.entries))) := by
  have hreach := run.reached
  have hmap' : h'.namespaceRoot = none := hreach.form.trans hmap
  by_cases hne : leftHead = rightHead
  · have hsame := hhash hne
    subst hsame
    refine ⟨{ snapshot := { h' with namespaceRoot := none, entries := h'.entries } }, ?_, rfl,
      fun _ _ => ⟨fun _ p a b ha hb _ hlt => ?_, fun _ => rfl⟩, fun hne' => (hne' hne).elim⟩
    · simp [mergeMetadataHeads, mergeMetadataHeadsOver, hmap, hne]
    · rw [ha, Option.some.injEq] at hb
      rw [hb] at hlt
      exact lt_irrefl _ hlt
  · rw [mergeMetadataHeads_eq metadataConflictId hmap hmap' hne]
    have hside : ((orderedSides h h' leftHead rightHead).1 = sideOf h ∧
          (orderedSides h h' leftHead rightHead).2 = sideOf h') ∨
        ((orderedSides h h' leftHead rightHead).1 = sideOf h' ∧
          (orderedSides h h' leftHead rightHead).2 = sideOf h) := by
      unfold orderedSides
      split
      · exact .inr ⟨rfl, rfl⟩
      · exact .inl ⟨rfl, rfl⟩
    rcases (ahead_of_reached hcov hreach).mergeOrdered hside hclosed hclosed'
      hreach.catalogue.1.symm hreach.conflicts metadataConflictId
      (min leftHead rightHead) (max leftHead rightHead) with ⟨result, hrun, hcreated, hentries⟩
    have hiff : result.snapshot.entries = h'.entries ↔ ∀ p : ByteString,
        agreedAt h.conflicts p (fastForwardAt h.entries h'.entries p) = h'.entries[p]? := by
      constructor
      · intro heq p
        have hp := hentries p
        rw [heq] at hp
        exact hp.symm
      · exact fun hall => OrdMap.ext fun p => (hentries p).trans (hall p)
    refine ⟨result, hrun, hcreated, fun hmoved hmoved' => ?_, fun _ => ⟨fun hties hmoved => ?_,
      fun hone => hiff.trans (forwarded_iff hone)⟩⟩
    · rw [hiff]
      refine forall_congr' fun p => ?_
      rw [← fastForwardAt_eq_iff]
      rcases fastForwardAt_eq_or h.entries h'.entries p with heq | heq
      · rw [heq, agreedAt_of_unmoved hmoved]
      · rw [heq, agreedAt_of_unmoved hmoved']
    · refine hiff.2 fun p => ?_
      rw [(fastForwardAt_eq_iff _ _ p).2 (hties p), agreedAt_of_unmoved hmoved]

namespace RenamedBack

def root : FsEntry := { type := .directory, mode := 0o755 }

/-- Written by author 5. -/
def file : FsEntry := { size := 10, mtimeNs := 100, provenance := ⟨9, ⟨5, 1⟩, ⟨5, 1⟩⟩ }

def behind : MetadataSnapshot :=
  { entries := ((∅ : NamespaceEntries).insert rootPath root).insert (bytes "/f") file
    mutationSequences := (∅ : VersionClock).insert 5 1
    legacyClock := some ∅ }

def moveAway : Mutation :=
  { dot := ⟨3, 1⟩
    eraseEntries := [bytes "/f"]
    upsertEntries := (∅ : NamespaceEntries).insert (bytes "/g") file }

def moveBack : Mutation :=
  { dot := ⟨3, 2⟩
    eraseEntries := [bytes "/g"]
    upsertEntries := (∅ : NamespaceEntries).insert (bytes "/f") file }

def legacy : ByteString → NodeId := fun _ => 1

def ahead : MetadataSnapshot := moveBack.commit legacy (moveAway.commit legacy behind)

theorem behind_run : FastForward legacy 3 behind ahead :=
  .step (.step .refl rfl (by decide)) rfl (by decide)

/-- The name author 3 gave the file again is lost against the older one. -/
theorem merge_keeps_the_older_name :
    FastForward legacy 3 behind ahead ∧ CoversOwnDots behind ∧ Closed behind.entries ∧
      Closed ahead.entries ∧
      (mergeMetadataHeads conflictTokens behind ahead [1] [2]).toOption.map
        (fun result => (decide (result.snapshot.entries = ahead.entries),
          result.snapshot.entries[bytes "/f"]?.map (·.provenance.name),
          ahead.entries[bytes "/f"]?.map (·.provenance.name))) =
        some (false, some ⟨5, 1⟩, some ⟨3, 2⟩) :=
  ⟨behind_run, by decide, by decide, by decide, by decide⟩

def away : MetadataSnapshot := moveAway.commit legacy behind

/-- Renamed once, the file is where the head ahead has it. -/
theorem merge_renamed_once :
    ∃ result, mergeMetadataHeads conflictTokens behind away [1] [2] = .ok result ∧
      result.conflictsCreated = 0 ∧ result.snapshot.entries = away.entries := by
  have run : FastForward legacy 3 behind away := .step .refl rfl (by decide)
  rcases mergeMetadataHeads_fastForward conflictTokens legacy run (by decide) rfl (by decide)
    (by decide) [1] [2] (by decide) with ⟨result, hrun, hcreated, hties, -⟩
  have hempty : ∀ entries, Unmoved behind.conflicts entries :=
    fun entries c w ⟨id, hc⟩ => by simp [behind] at hc
  exact ⟨result, hrun, hcreated, (hties (hempty _) (hempty _)).2 (by decide)⟩

end RenamedBack

end Macha
