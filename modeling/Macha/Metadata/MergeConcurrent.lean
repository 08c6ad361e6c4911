import Macha.Metadata.MergeFastForward
import Macha.Metadata.MergeLeaves

/-!
# What a merge keeps of a concurrent change

A change one head made and the other has not seen is found in the merge: in
place, under the name the merge kept for the file, or in a conflict. The one
exception is a file with two names whose content the other head changed later:
the record names a value that is not the one put in place, and pruning drops it.
-/

namespace Macha

open List Option

theorem sameContent_iff {a b : FsEntry} :
    sameContent a b ↔ a.type = b.type ∧ a.mode = b.mode ∧ a.uid = b.uid ∧ a.gid = b.gid ∧
      a.size = b.size ∧ a.extents = b.extents := by
  simp [sameContent, and_assoc]

theorem sameContent_refl (a : FsEntry) : sameContent a a := by
  simp [sameContent_iff]

theorem sameContent_trans {a b c : FsEntry} (hab : sameContent a b) (hbc : sameContent b c) :
    sameContent a c := by
  rw [sameContent_iff] at *
  exact ⟨hab.1.trans hbc.1, hab.2.1.trans hbc.2.1, hab.2.2.1.trans hbc.2.2.1,
    hab.2.2.2.1.trans hbc.2.2.2.1, hab.2.2.2.2.1.trans hbc.2.2.2.2.1,
    hab.2.2.2.2.2.trans hbc.2.2.2.2.2⟩

theorem sameContent_of_withoutProvenance {a b : FsEntry}
    (h : withoutProvenance a = withoutProvenance b) : sameContent a b := by
  cases a
  cases b
  simp only [withoutProvenance, FsEntry.mk.injEq] at h
  simp [sameContent_iff, h]

theorem sameContent_renamed (value : FsEntry) (name : MetadataDot) :
    sameContent value (renamed value name) := by
  simp [sameContent_iff, renamed]

variable {oneFile : Bool}

/-- A value the other head has not seen is not settled away: its content stays,
or the two values are recorded beside each other. -/
theorem settleValue_of_unseen {mine theirs : Side} {a b : FsEntry}
    (h : contentSeen theirs mine a = false) :
    ((settleValue mine theirs a b oneFile).2 = none ∧
        sameContent a (settleValue mine theirs a b oneFile).1) ∨
      settleValue mine theirs a b oneFile = (a, some b) ∨
      settleValue mine theirs a b oneFile = (b, some a) := by
  rcases settleValue_cases mine theirs a b oneFile with hv | hv | hv | hv
  · exact .inl (by simp [hv, sameContent_refl])
  · refine .inl ⟨by simp [hv], ?_⟩
    by_contra hdiffer
    rw [hv] at hdiffer
    have hprov : ¬withoutProvenance a = withoutProvenance b :=
      fun hp => hdiffer (sameContent_of_withoutProvenance hp)
    have hprovides : settleValue mine theirs a b oneFile ≠ (b, none) := by
      have hne : (b, (none : Option FsEntry)) ≠ (a, none) := by
        intro hpair
        rw [Prod.mk.injEq] at hpair
        exact hdiffer (by rw [hpair.1]; exact sameContent_refl a)
      cases hright : (contentSeen mine theirs b && (oneFile || nameSeen mine theirs b)) with
      | true => simpa [settleValue, hprov, h, hright] using fun hab => hne (by rw [hab])
      | false =>
        have hdiffer' : sameContent a b = false := by simpa using hdiffer
        simp [settleValue, hprov, h, hright, hdiffer']
    exact hprovides hv
  · exact .inr (.inl hv)
  · exact .inr (.inr hv)

/-- Two values recorded beside each other: neither head has seen the other's, or
both have, the contents differ and the later stands. -/
theorem settleValue_eq_other {l r : Side} {a b value other : FsEntry}
    (h : settleValue l r a b oneFile = (value, some other)) :
    withoutProvenance a ≠ withoutProvenance b ∧ sameContent a b = false ∧ value = laterEntry a b ∧
      (contentSeen r l a && (oneFile || nameSeen r l a)) =
        (contentSeen l r b && (oneFile || nameSeen l r b)) := by
  unfold settleValue at h
  dsimp only at h
  split at h
  · simp at h
  · rename_i hprov
    split at h
    · simp at h
    · rename_i hleft
      split at h
      · simp at h
      · rename_i hright
        split at h
        · simp at h
        · rename_i hsame
          simp only [Prod.mk.injEq] at h
          refine ⟨hprov, by simpa using hsame, h.1.symm, ?_⟩
          revert hleft hright
          cases contentSeen r l a && (oneFile || nameSeen r l a) <;>
            cases contentSeen l r b && (oneFile || nameSeen l r b) <;> simp

/-! ## Where the content is found -/

/-- The path of an entry, and the name the other head gave its file. -/
def NameOf (mine theirs : Side) (p : ByteString) (e : FsEntry) (k : ByteString) : Prop :=
  k = p ∨ ∃ b, JoinedPair mine theirs p k e b

/-- The content of an entry of `p`, in a namespace with the conflicts recorded
over it: at one of its names, or as an alternative of a record there whose
installed value is in place. -/
def HeldOver (entries : NamespaceEntries) (log : List MetadataConflict)
    (names : ByteString → Prop) (p : ByteString) (e : FsEntry) : Prop :=
  ∃ k, names k ∧
    ((∃ v, entries[k]? = some v ∧ (k = p ∨ (e.provenance.fileId ≠ 0 ∧
        v.provenance.fileId = e.provenance.fileId)) ∧ sameContent e v) ∨
      ∃ installed other, entryConflict k installed other ∈ log ∧
        entries[k]? = some installed ∧ (sameContent e installed ∨ sameContent e other))

/-- The case in which a change is lost: the file has another name in the other
head, with content the other head changed later and this one has not seen, and
the name kept is this head's. -/
def Overridden (mine theirs : Side) (p : ByteString) (e : FsEntry) : Prop :=
  ∃ q b, JoinedPair mine theirs p q e b ∧ contentSeen mine theirs b = false ∧
    sameContent e b = false ∧ laterEntry e b = b ∧ keepLeft mine theirs e b ∧
    e.provenance.name ≠ b.provenance.name

theorem settleLog_of_other {l r : Side} {p : ByteString} {a b value other : FsEntry}
    (h : settleValue l r a b oneFile = (value, some other)) :
    settleLog l r p a b oneFile = [entryConflict p value other] := by
  simp [settleLog, h]

section

variable {l r mine theirs : Side} {entries : NamespaceEntries} {restored : List MetadataConflict}
  {p : ByteString} {e b : FsEntry} {c : MetadataConflict} {leftHead rightHead : Hash256}

theorem mem_createdLog_of_joined (hc : c ∈ joinedLog l r) :
    c ∈ createdLog l r leftHead rightHead restored :=
  mem_append_left _ (mem_append_left _ hc)

theorem mem_createdLog_of_restored (hc : c ∈ restored) :
    c ∈ createdLog l r leftHead rightHead restored :=
  mem_append_left _ (mem_append_right _ hc)

/-- A path both heads hold: the change is in place or in a record, also where a
directory takes the path. -/
theorem Sides.heldOver_of_both (hside : Sides l r mine theirs)
    (hrest : Restores l r (Needed (joinedEntries l r)) (joinedEntries l r) entries restored)
    (he : mine.entries[p]? = some e) (hb : theirs.entries[p]? = some b)
    (hunseen : contentSeen theirs mine e = false) :
    HeldOver entries (createdLog l r leftHead rightHead restored)
      (NameOf mine theirs p e) p e := by
  have hjoined : (joinedEntries l r)[p]? = some (settleValue mine theirs e b false).1 :=
    (hside.joined_of_both he hb).trans (settledAt_both he hb)
  rcases settleValue_of_unseen hunseen with ⟨-, hsame⟩ | hv | hv
  · rcases hrest.at_some hjoined with hat | ⟨-, d, hd, -, -, hlog⟩
    · exact ⟨p, .inl rfl, .inl ⟨_, hat, .inl rfl, hsame⟩⟩
    · exact ⟨p, .inl rfl, .inr ⟨d, _, mem_createdLog_of_restored hlog, hd, .inr hsame⟩⟩
  · rw [hv] at hjoined
    rcases hrest.at_some hjoined with hat | ⟨-, d, hd, -, -, hlog⟩
    · exact ⟨p, .inl rfl, .inl ⟨e, hat, .inl rfl, sameContent_refl e⟩⟩
    · exact ⟨p, .inl rfl, .inr ⟨d, e, mem_createdLog_of_restored hlog, hd,
        .inr (sameContent_refl e)⟩⟩
  · rw [hv] at hjoined
    have hne : e ≠ b := by
      rintro rfl
      simp [settleValue] at hv
    rcases hrest.at_some hjoined with hat | ⟨hfile, d, hd, -, hdir, -⟩
    · have hlog : entryConflict p b e ∈ settlePathsLog l r :=
        hside.settleLog_mem he hb hne (by rw [settleLog_of_other hv]; exact mem_singleton_self _)
      exact ⟨p, .inl rfl, .inr ⟨b, e, mem_createdLog_of_joined (mem_append_left _ hlog), hat,
        .inr (sameContent_refl e)⟩⟩
    · have htheirs : isDirectoryAt theirs.entries p = false := by simp [isDirectoryAt, hb, hfile]
      rw [hside.symm.directoryOf htheirs] at hdir
      split at hdir
      · rw [he, some.injEq] at hdir
        exact ⟨p, .inl rfl, .inl ⟨d, hd, .inl rfl, by rw [hdir]; exact sameContent_refl d⟩⟩
      · simp at hdir

theorem renamed_fileId {a b value : FsEntry} (name : MetadataDot)
    (hfile : b.provenance.fileId = a.provenance.fileId) (hv : value = a ∨ value = b) :
    (renamed value name).provenance.fileId = a.provenance.fileId := by
  rcases hv with rfl | rfl
  · rfl
  · exact hfile

variable {q : ByteString}

section

variable (hside : Sides l r mine theirs)

include hside

section

variable (hrest : Restores l r (Needed (joinedEntries l r)) (joinedEntries l r) entries restored)

include hrest

/-- The change of a file with two names is at the name kept, or recorded there,
unless it is overridden. -/
theorem Sides.heldOver_of_pair (hpair : JoinedPair mine theirs p q e b)
    (hunseen : contentSeen theirs mine e = false) (hnot : ¬Overridden mine theirs p e) :
    HeldOver entries (createdLog l r leftHead rightHead restored)
      (NameOf mine theirs p e) p e := by
  rcases hside.pairOutcome hpair with ⟨kept, dropped, name, hout⟩
  have hat := hside.final_of_pair hrest hpair hout
  have hnamed : NameOf mine theirs p e kept := by
    rcases hout.which with ⟨hp, -⟩ | ⟨hq, -⟩
    · exact .inl hp
    · exact .inr ⟨b, hq ▸ hpair⟩
  have hplace : sameContent e (settleValue mine theirs e b true).1 →
      HeldOver entries (createdLog l r leftHead rightHead restored)
      (NameOf mine theirs p e) p e := by
    intro hsame
    refine ⟨kept, hnamed, .inl ⟨_, hat, .inr ⟨hpair.fileId_ne, ?_⟩, ?_⟩⟩
    · exact renamed_fileId name hpair.fileId (settleValue_fst_eq_or mine theirs e b true)
    · exact sameContent_trans hsame (sameContent_renamed _ name)
  rcases settleValue_of_unseen hunseen with ⟨-, hsame⟩ | hv | hv
  · exact hplace hsame
  · exact hplace (by rw [hv]; exact sameContent_refl e)
  · by_cases hname : name = b.provenance.name
    · have hb : renamed (settleValue mine theirs e b true).1 name = b := by rw [hv, hname]; rfl
      rw [hb] at hat
      have hlog := hout.log (entryConflict kept b e)
        (by rw [settleLog_of_other hv]; exact mem_singleton_self _)
      exact ⟨kept, hnamed, .inr ⟨b, e, mem_createdLog_of_joined hlog, hat,
        .inr (sameContent_refl e)⟩⟩
    · rcases hout.which with ⟨hkept, -, hmine⟩ | ⟨-, -, htheirs⟩
      · have hnames : e.provenance.name ≠ b.provenance.name := fun h => hname (hmine.trans h)
        rcases settleValue_eq_other hv with ⟨-, hsame, hlater, hseen⟩
        refine (hnot ⟨q, b, hpair, ?_, hsame, hlater.symm, (hout.newer hnames).1 hkept,
          hnames⟩).elim
        simpa [hunseen] using hseen.symm
      · exact (hname htheirs).elim

theorem Sides.heldOver_of_alone (he : mine.entries[p]? = some e)
    (hb : theirs.entries[p]? = none) (hkept : removed theirs mine e = false)
    (hunseen : contentSeen theirs mine e = false) (hnot : ¬Overridden mine theirs p e) :
    HeldOver entries (createdLog l r leftHead rightHead restored)
      (NameOf mine theirs p e) p e := by
  by_cases hpair : ∃ q a b, JoinedPair mine theirs p q a b
  · rcases hpair with ⟨q, a, b, hpair⟩
    obtain rfl : a = e := by
      have ha := hpair.leftEntry.1
      rw [he, some.injEq] at ha
      exact ha.symm
    exact hside.heldOver_of_pair hrest hpair hunseen hnot
  · exact ⟨p, .inl rfl, .inl ⟨e, hside.final_of_alone hrest he hb hkept hpair, .inl rfl,
      sameContent_refl e⟩⟩

end

/-! ## Where it is not -/

/-- An alternative of a conflict: the one its merge left in place, or another. -/
def Alternative (c : MetadataConflict) (alt : FsEntry) : Prop :=
  conflictInstalledEntry c = some alt ∨ c.leftEntry = some alt ∨ c.rightEntry = some alt

/-- No other entry of the heads, and no record standing in them, has the content
of `e`, which `mine` holds at `p`. -/
structure OnlyContent (mine theirs : Side) (p : ByteString) (e : FsEntry) : Prop where
  own : ∀ (q : ByteString) (a : FsEntry), mine.entries[q]? = some a → q ≠ p →
    sameContent e a = false
  other : ∀ (q : ByteString) (b : FsEntry), theirs.entries[q]? = some b → sameContent e b = false
  records : ∀ (id : ByteString) (c : MetadataConflict) (alt : FsEntry),
    mine.snapshot.conflicts[id]? = some c ∨ theirs.snapshot.conflicts[id]? = some c →
      Alternative c alt → sameContent e alt = false

omit hside in
theorem sameContent_renamed_iff {e value : FsEntry} {name : MetadataDot} :
    sameContent e (renamed value name) ↔ sameContent e value := by
  constructor
  · intro h
    have hback := sameContent_renamed value name
    exact sameContent_trans h hback
  · exact fun h => sameContent_trans h (sameContent_renamed value name)

omit hside in
theorem settleValue_of_concurrent {a b : FsEntry} (hmine : contentSeen theirs mine a = false)
    (htheirs : contentSeen mine theirs b = false) (hsame : sameContent a b = false)
    (hlater : laterEntry a b = b) :
    settleValue mine theirs a b true = (b, some a) := by
  have hprov : ¬withoutProvenance a = withoutProvenance b := by
    intro h
    rw [sameContent_of_withoutProvenance h] at hsame
    simp at hsame
  have hne : ¬b = a := by
    rintro rfl
    exact hprov rfl
  simp [settleValue, hprov, hmine, htheirs, hsame, hlater, hne]

/-- An overridden change gives its name to the other head's content. -/
theorem Sides.overridden_outcome (hpair : JoinedPair mine theirs p q e b)
    (hkeep : keepLeft mine theirs e b) (hnames : e.provenance.name ≠ b.provenance.name) :
    PairOutcome l r mine theirs p q e b p q e.provenance.name := by
  rcases hside.pairOutcome hpair with ⟨kept, dropped, name, hout⟩
  have hkept : kept = p := (hout.newer hnames).2 hkeep
  rcases hout.which with ⟨-, rfl, rfl⟩ | ⟨hq, -, -⟩
  · rw [hkept] at hout
    exact hout
  · exact (hpair.ne (hkept.symm.trans hq)).elim

variable {z key : ByteString}

omit hside in
theorem alternative_entryConflict {installed other alt : FsEntry}
    (h : Alternative (entryConflict key installed other) alt) : alt = installed ∨ alt = other := by
  simp only [Alternative, conflictInstalledEntry, entryConflict, if_true, some.injEq] at h
  rcases h with h | h | h
  · exact .inl h.symm
  · exact .inl h.symm
  · exact .inr h.symm

omit hside in
theorem alternative_of_settleLog {a b alt : FsEntry} {oneFile : Bool}
    (hc : c ∈ settleLog l r key a b oneFile) (halt : Alternative c alt) :
    alt = a ∨ alt = b := by
  rcases settleLog_eq hc with ⟨other, hother, rfl⟩
  rcases alternative_entryConflict halt with rfl | rfl
  · exact settleValue_fst_eq_or l r a b oneFile
  · rcases settleValue_cases l r a b oneFile with hv | hv | hv | hv <;> rw [hv] at hother <;>
      simp at hother
    · exact .inr hother.symm
    · exact .inl hother.symm

section

variable (honly : OnlyContent mine theirs p e) (hpair : JoinedPair mine theirs p q e b)
  (hout : PairOutcome l r mine theirs p q e b p q e.provenance.name)
  (hv : settleValue mine theirs e b true = (b, some e))

include honly hpair hout hv

theorem Sides.joined_not_sameContent {v : FsEntry} (hz : (joinedEntries l r)[z]? = some v) :
    sameContent e v = false := by
  have hb : sameContent e b = false := honly.other q b hpair.rightEntry.1
  by_cases hjoin : ∃ x y a c, JoinedPair mine theirs x y a c ∧ (z = x ∨ z = y)
  · rcases hjoin with ⟨x, y, a, c, hpair', hname⟩
    rcases hside.pairOutcome hpair' with ⟨kept, dropped, name, hout'⟩
    have hkept : z = kept := by
      rcases hout'.which with ⟨rfl, rfl, -⟩ | ⟨rfl, rfl, -⟩ <;> rcases hname with rfl | rfl
      · rfl
      · rw [hout'.gone] at hz
        simp at hz
      · rw [hout'.gone] at hz
        simp at hz
      · rfl
    rw [hkept, hout'.entry, some.injEq] at hz
    rw [← hz, Bool.eq_false_iff]
    intro hsame
    rw [sameContent_renamed_iff] at hsame
    by_cases hx : x = p
    · subst hx
      rcases hpair.eq_of_left hpair' with ⟨rfl, rfl, rfl⟩
      rw [hv, hb] at hsame
      simp at hsame
    · have ha := honly.own x a hpair'.leftEntry.1 hx
      have hc := honly.other y c hpair'.rightEntry.1
      rcases settleValue_fst_eq_or mine theirs a c true with hval | hval <;> rw [hval] at hsame
      · simp [ha] at hsame
      · simp [hc] at hsame
  · have hz' : Macha.settledAt mine theirs z = some v := by
      rw [← hz, hside.joined_of_not_pair]
      · exact fun y a c h => hjoin ⟨z, y, a, c, h, .inl rfl⟩
      · exact fun x a c h => hjoin ⟨x, z, a, c, h, .inr rfl⟩
    have hzp : z ≠ p := by
      rintro rfl
      exact hjoin ⟨z, q, e, b, hpair, .inl rfl⟩
    rcases settledAt_source hz' with hmine | htheirs
    · exact honly.own z v hmine hzp
    · exact honly.other z v htheirs

variable (hrest : Restores l r (Needed (joinedEntries l r)) (joinedEntries l r) entries restored)

include hrest

theorem Sides.final_not_sameContent {v : FsEntry} (hz : entries[z]? = some v) :
    sameContent e v = false := by
  rcases hrest.change z with hsame | ⟨-, -, hval, -⟩
  · exact hside.joined_not_sameContent honly hpair hout hv (hsame.symm.trans hz)
  · by_cases hzp : z = p
    · rw [hzp, hside.final_of_pair hrest hpair hout, hv, some.injEq] at hz
      rw [← hz, Bool.eq_false_iff, ne_eq, sameContent_renamed_iff,
        honly.other q b hpair.rightEntry.1]
      simp
    · rw [hval] at hz
      rcases hside.directoryOf_source hz with hmine | htheirs
      · exact honly.own z v hmine hzp
      · exact honly.other z v htheirs

/-- No record the merge makes and keeps has the content of an overridden
change. -/
theorem Sides.created_not_sameContent (hnames : e.provenance.name ≠ b.provenance.name)
    {alt : FsEntry} (hc : c ∈ createdLog l r leftHead rightHead restored)
    (hstands : c.kind = .namespaceEntry → c.key = p → entries[c.key]? = conflictInstalledEntry c)
    (halt : Alternative c alt) : sameContent e alt = false := by
  simp only [createdLog, joinedLog, mem_append] at hc
  rcases hc with ((hc | hc) | hc) | hc
  · rcases mem_settlePathsLog.1 hc with ⟨z, x, y, hx, hy, -, hc⟩
    have hheld : mine.entries[z]? = some alt ∨ theirs.entries[z]? = some alt := by
      rcases hside with ⟨rfl, rfl⟩ | ⟨rfl, rfl⟩ <;>
        rcases alternative_of_settleLog hc halt with rfl | rfl <;> simp [hx, hy]
    have hboth : mine.entries[z]?.isSome ∧ theirs.entries[z]?.isSome := by
      rcases hside with ⟨rfl, rfl⟩ | ⟨rfl, rfl⟩ <;> simp [hx, hy]
    have hz : z ≠ p := by
      rintro rfl
      simp [hpair.leftEntry.2.1] at hboth
    rcases hheld with hmine | htheirs
    · exact honly.own z alt hmine hz
    · exact honly.other z alt htheirs
  · rcases hside.joinIdentitiesLog_cases hc with ⟨x, y, a, d, kept, hpair', hlog, hpath, hsome⟩
    by_cases hx : x = p
    · subst hx
      rcases hpair.eq_of_left hpair' with ⟨rfl, rfl, rfl⟩
      obtain rfl : kept = x := by
        rcases hpath with rfl | rfl
        · rfl
        · rw [hout.gone] at hsome
          simp at hsome
      rw [settleLog_of_other hv, mem_singleton] at hlog
      subst hlog
      have hlive := hstands rfl rfl
      rw [show (entryConflict kept d a).key = kept from rfl,
        hside.final_of_pair hrest hpair hout, hv] at hlive
      simp only [conflictInstalledEntry, entryConflict, if_true, some.injEq] at hlive
      exact (hnames (by rw [← hlive]; rfl)).elim
    · rcases alternative_of_settleLog hlog halt with rfl | rfl
      · exact honly.own x alt hpair'.leftEntry.1 hx
      · exact honly.other y alt hpair'.rightEntry.1
  · rcases hrest.sound c hc with ⟨z, d, f, -, hd, -, hf, rfl⟩
    rcases alternative_entryConflict halt with rfl | rfl
    · exact hside.final_not_sameContent honly hpair hout hv hrest hd
    · exact hside.joined_not_sameContent honly hpair hout hv hf
  · unfold catalogueLog at hc
    split at hc
    · simp at hc
    · rw [mem_singleton.1 hc] at halt
      simp [Alternative, conflictInstalledEntry, catalogueConflict] at halt

end

end

/-- A snapshot holds the content of an entry of `p`: at the path, at a path of
the same file, or as an alternative of a conflict. -/
def HoldsContent (s : MetadataSnapshot) (p : ByteString) (e : FsEntry) : Prop :=
  (∃ v, s.entries[p]? = some v ∧ sameContent e v) ∨
  (∃ (q : ByteString) (v : FsEntry), s.entries[q]? = some v ∧ e.provenance.fileId ≠ 0 ∧
    v.provenance.fileId = e.provenance.fileId ∧ sameContent e v) ∨
  ∃ (id : ByteString) (c : MetadataConflict) (alt : FsEntry), s.conflicts[id]? = some c ∧
    Alternative c alt ∧ sameContent e alt

/-- An entry whose last change the other head has not seen. -/
structure ConcurrentChange (mine theirs : MetadataSnapshot) (p : ByteString) (e : FsEntry) :
    Prop where
  held : mine.entries[p]? = some e
  isSet : e.provenance.content.isSet
  unseen : clockCovers theirs.mutationSequences e.provenance.content = false

theorem ConcurrentChange.contentSeen {m t : MetadataSnapshot} (h : ConcurrentChange m t p e) :
    contentSeen (sideOf t) (sideOf m) e = false := by
  simp [Macha.contentSeen, h.isSet, Side.clock, sideOf, h.unseen]

theorem alternative_of_agreed {w : FsEntry} (h : agreedOverBase c = some w) : Alternative c w := by
  unfold agreedOverBase at h
  split at h
  · simp at h
  · split at h
    · next a b ha hb =>
      split at h
      · by_cases hlt : a < b <;> simp only [hlt, if_true, if_false, some.injEq] at h <;> subst h
        · exact .inr (.inl ha)
        · exact .inr (.inr hb)
      · simp at h
    · simp at h

/-- No record of the heads moves what the merge leaves at a name of the entry. -/
def Undisturbed (heads : MergeHeads) (mine theirs : MetadataSnapshot) (p : ByteString)
    (e : FsEntry) : Prop :=
  ∀ k, NameOf (sideOf mine) (sideOf theirs) p e k → ∀ c w, ¬MovesLeft heads k c w

namespace MergeRun

variable {metadataConflictId : MetadataConflict → ByteString}
  (hinj : Function.Injective metadataConflictId) {heads : MergeHeads} (run : MergeRun heads)
  {m t : MetadataSnapshot} (hside : Sides run.l run.r (sideOf m) (sideOf t))
  (hquiet : Undisturbed heads m t p e)

include hinj hquiet

theorem quiet_at {k : ByteString} (hk : NameOf (sideOf m) (sideOf t) p e k) {w : FsEntry}
    (hc : RecordIn (run.conflicts metadataConflictId) c) : ¬MovesAt k run.entries[k]? c w :=
  fun hmoves => hquiet k hk c w (run.movesLeft_of_conflicts hinj hc hmoves)

theorem mem_conflicts_at {id : ByteString} (hk : NameOf (sideOf m) (sideOf t) p e c.key)
    (hc : (run.conflicts metadataConflictId)[id]? = some c) :
    (run.result metadataConflictId).snapshot.conflicts[id]? = some c ↔
      remains (mergedCatalogue run.l run.r).1 (mergedCatalogue run.l run.r).2 run.entries c :=
  mem_prune_conflicts _ _ hc fun id' _ _ hc' _ => run.quiet_at hinj hquiet hk ⟨id', hc'⟩

include hside

theorem holdsContent (hchange : ConcurrentChange m t p e)
    (hnot : ¬Overridden (sideOf m) (sideOf t) p e) :
    HoldsContent (run.result metadataConflictId).snapshot p e := by
  have hkept : removed (sideOf t) (sideOf m) e = false := by
    simp [removed, EntryProvenance.empty, hchange.isSet, hchange.contentSeen]
  have hheld : HeldOver run.entries (createdLog run.l run.r (min heads.leftHead heads.rightHead)
      (max heads.leftHead heads.rightHead) run.restored) (NameOf (sideOf m) (sideOf t) p e) p e := by
    cases hb : t.entries[p]? with
    | some b =>
      exact hside.heldOver_of_both run.restores hchange.held hb hchange.contentSeen
    | none =>
      exact hside.heldOver_of_alone run.restores hchange.held hb hkept hchange.contentSeen hnot
  obtain ⟨k, hname, ⟨v, hat, hfile, hsame⟩ | ⟨installed, other, hlog, hlive, hcontent⟩⟩ := hheld
  · have hout : (run.result metadataConflictId).snapshot.entries[k]? = some v := by
      rw [run.result_entries, agreedAt_of_quiet fun c w hc => run.quiet_at hinj hquiet hname hc,
        hat]
    rcases hfile with rfl | ⟨hne, hfile⟩
    · exact .inl ⟨v, hout, hsame⟩
    · exact .inr (.inl ⟨k, v, hout, hne, hfile, hsame⟩)
  · have hin := (run.mem_conflicts_at hinj hquiet hname
      (unprunedConflicts_of_created metadataConflictId hinj hlog)).2 (by
        simp [remains, stands, entryConflict, conflictInstalledEntry, agreedOverBase, hlive])
    rcases hcontent with hsame | hsame
    · exact .inr (.inr ⟨_, _, installed, hin, .inr (.inl rfl), hsame⟩)
    · exact .inr (.inr ⟨_, _, other, hin, .inr (.inr rfl), hsame⟩)

theorem not_overridden (hchange : ConcurrentChange m t p e)
    (honly : OnlyContent (sideOf m) (sideOf t) p e)
    (hheld : HoldsContent (run.result metadataConflictId).snapshot p e) :
    ¬Overridden (sideOf m) (sideOf t) p e := by
  rintro ⟨q, b, hpair, htheirs, hsame, hlater, hkeep, hnames⟩
  have hout := hside.overridden_outcome hpair hkeep hnames
  have hv := settleValue_of_concurrent hchange.contentSeen htheirs hsame hlater
  have hrecord : ∀ {id : ByteString} {c : MetadataConflict} {alt : FsEntry},
      run.l.snapshot.conflicts[id]? = some c ∨ run.r.snapshot.conflicts[id]? = some c →
        Alternative c alt → sameContent e alt = false := by
    intro id c alt hc
    refine honly.records id c alt ?_
    rcases hside with ⟨hm, ht⟩ | ⟨hm, ht⟩ <;> rw [← hm, ← ht] at hc
    · exact hc
    · exact hc.symm
  have hentry : ∀ {z : ByteString} {v},
      (run.result metadataConflictId).snapshot.entries[z]? = some v → sameContent e v = false := by
    intro z v hat
    rw [run.result_entries] at hat
    rcases agreedAt_cases (run.conflicts metadataConflictId) z run.entries[z]? with
      ⟨-, hsame⟩ | ⟨-, c, w, value, hc, hmoves, hval, -⟩
    · exact hside.final_not_sameContent honly hpair hout hv run.restores (hsame.symm.trans hat)
    · obtain rfl : w = v := some.inj (hval.symm.trans hat)
      rcases recorded_of_movesAt metadataConflictId hinj run.restores hc hmoves with
        ⟨id, hc⟩ | ⟨id, hc⟩
      · exact hrecord (.inl hc) (alternative_of_agreed hmoves.agreed)
      · exact hrecord (.inr hc) (alternative_of_agreed hmoves.agreed)
  rcases hheld with ⟨v, hat, hcontent⟩ | ⟨z, v, hat, -, -, hcontent⟩ |
    ⟨id, c, alt, hin, halt, hcontent⟩
  · simp [hentry hat] at hcontent
  · simp [hentry hat] at hcontent
  · have hunpruned : (run.conflicts metadataConflictId)[id]? = some c := mem_of_prune _ _ hin
    have hlive : c.kind = .namespaceEntry → c.key = p →
        run.entries[c.key]? = conflictInstalledEntry c := by
      intro hkind hkey
      have hremains := (run.mem_conflicts_at hinj hquiet (.inl hkey) hunpruned).1 hin
      simp only [remains, stands, hkind, Bool.and_eq_true, decide_eq_true_eq] at hremains
      exact hremains.1
    rcases unprunedConflicts_cases metadataConflictId hinj hunpruned with ⟨hc, -⟩ | hc
    · rw [hside.created_not_sameContent honly hpair hout hv run.restores hnames hc hlive
        halt] at hcontent
      simp at hcontent
    · simp [hrecord hc halt] at hcontent

end MergeRun

end

/-- A change the other head has not seen, over which no record of the heads stands,
is held by the merge unless it is overridden, and not held if it is and its content
is nowhere else. -/
theorem mergeMetadataHeads_holds_concurrent (metadataConflictId : MetadataConflict → ByteString)
    (hinj : Function.Injective metadataConflictId) (heads : MergeHeads)
    (hne : heads.leftHead ≠ heads.rightHead) :
    ∃ result, mergeMetadataHeads metadataConflictId heads.left heads.right heads.leftHead
        heads.rightHead = .ok result ∧
      ∀ mine theirs, (mine = heads.left ∧ theirs = heads.right ∨
          mine = heads.right ∧ theirs = heads.left) →
        ∀ p e, ConcurrentChange mine theirs p e → Undisturbed heads mine theirs p e →
          (¬Overridden (sideOf mine) (sideOf theirs) p e → HoldsContent result.snapshot p e) ∧
          (OnlyContent (sideOf mine) (sideOf theirs) p e → HoldsContent result.snapshot p e →
            ¬Overridden (sideOf mine) (sideOf theirs) p e) := by
  obtain ⟨run, hrun⟩ := MergeHeads.exists_run metadataConflictId hne
  refine ⟨_, hrun, fun mine theirs hwhich p e hchange hquiet => ?_⟩
  have hside : Sides run.l run.r (sideOf mine) (sideOf theirs) := by
    rcases hwhich with ⟨rfl, rfl⟩ | ⟨rfl, rfl⟩
    · exact run.hashed.sides
    · exact run.hashed.sides.symm
  exact ⟨run.holdsContent hinj hside hquiet hchange, run.not_overridden hinj hside hquiet hchange⟩

/-! ## Renamed and edited against a later edit -/

def alternatives (c : MetadataConflict) : List FsEntry :=
  [conflictInstalledEntry c, c.leftEntry, c.rightEntry].filterMap id

theorem mem_alternatives {c : MetadataConflict} {alt : FsEntry} :
    alt ∈ alternatives c ↔ Alternative c alt := by
  simp only [alternatives, Alternative, mem_filterMap, id_eq, mem_cons, not_mem_nil, or_false]
  constructor
  · rintro ⟨x, hx, rfl⟩
    simpa [eq_comm] using hx
  · intro h
    exact ⟨some alt, by simpa [eq_comm] using h, rfl⟩

instance (s : MetadataSnapshot) (p : ByteString) (e : FsEntry) : Decidable (HoldsContent s p e) :=
  decidable_of_iff
    ((∃ x ∈ s.entries.toList, x.1 = p ∧ sameContent e x.2) ∨
      (∃ x ∈ s.entries.toList, e.provenance.fileId ≠ 0 ∧
        x.2.provenance.fileId = e.provenance.fileId ∧ sameContent e x.2) ∨
      ∃ x ∈ s.conflicts.toList, ∃ alt ∈ alternatives x.2, sameContent e alt) (by
    unfold HoldsContent
    simp only [Prod.exists, OrdMap.mem_toList, mem_alternatives]
    refine or_congr ?_ (or_congr Iff.rfl ?_)
    · constructor
      · rintro ⟨q, v, hv, rfl, hsame⟩
        exact ⟨v, hv, hsame⟩
      · exact fun ⟨v, hv, hsame⟩ => ⟨p, v, hv, rfl, hsame⟩
    · constructor
      · exact fun ⟨id, c, hc, alt, halt, hsame⟩ => ⟨id, c, alt, hc, halt, hsame⟩
      · exact fun ⟨id, c, alt, hc, halt, hsame⟩ => ⟨id, c, hc, alt, halt, hsame⟩)

namespace RenamedAndEdited

def root : FsEntry := { type := .directory, mode := 0o755 }

def legacy : ByteString → NodeId := fun _ => 1

def content (size : Nat) (mtimeNs : Int) : FsEntry := { size := size, mtimeNs := mtimeNs }

/-- What both heads grew from: one file, written by author 1. -/
def common : MetadataSnapshot :=
  Mutation.commit legacy
    { dot := ⟨1, 1⟩
      upsertEntries := (∅ : NamespaceEntries).insert (bytes "/shared") (content 10 100)
      randomNodeId := fun _ => 77 }
    { entries := (∅ : NamespaceEntries).insert rootPath root }

/-- Author 1 renames the file, then changes it. -/
def renamer : MetadataSnapshot :=
  Mutation.commit legacy
    { dot := ⟨1, 3⟩
      upsertEntries := (∅ : NamespaceEntries).insert (bytes "/renamed") (content 20 200) }
    (Mutation.commit legacy
      { dot := ⟨1, 2⟩
        eraseEntries := [bytes "/shared"]
        upsertEntries := (∅ : NamespaceEntries).insert (bytes "/renamed")
          { content 10 100 with provenance := ⟨77, ⟨1, 1⟩, ⟨1, 1⟩⟩ } }
      common)

/-- Author 2 changes it later, under its old name. -/
def editor : MetadataSnapshot :=
  Mutation.commit legacy
    { dot := ⟨2, 1⟩
      upsertEntries := (∅ : NamespaceEntries).insert (bytes "/shared") (content 30 300) }
    common

def lost : FsEntry := { content 20 200 with provenance := ⟨77, ⟨1, 3⟩, ⟨1, 2⟩⟩ }

theorem renamer_change : ConcurrentChange renamer editor (bytes "/renamed") lost :=
  ⟨by decide, by decide, by decide⟩

/-- The merge records the conflict and drops the record in pruning. -/
theorem merge_loses_the_edit :
    ConcurrentChange renamer editor (bytes "/renamed") lost ∧ CoversOwnDots renamer ∧
      CoversOwnDots editor ∧ Closed renamer.entries ∧ Closed editor.entries ∧
      (mergeMetadataHeads conflictTokens renamer editor [1] [2]).toOption.map
        (fun result => (decide (HoldsContent result.snapshot (bytes "/renamed") lost),
          result.conflictsCreated, result.conflictsSuperseded)) = some (false, 1, 1) :=
  ⟨renamer_change, by decide, by decide, by decide, by decide, by decide +kernel⟩

def later : FsEntry := { content 30 300 with provenance := ⟨77, ⟨2, 1⟩, ⟨1, 1⟩⟩ }

/-- The later change is held. -/
theorem merge_holds_the_later_edit :
    ∃ result, mergeMetadataHeads conflictTokens renamer editor [1] [2] = .ok result ∧
      HoldsContent result.snapshot (bytes "/shared") later := by
  have hempty : renamer.conflicts = ∅ ∧ editor.conflicts = ∅ := by decide
  let heads : MergeHeads := ⟨renamer, editor, [1], [2], rfl, rfl, by decide, by decide⟩
  obtain ⟨result, hrun, hall⟩ := mergeMetadataHeads_holds_concurrent conflictTokens
    conflictTokens_injective heads (by decide)
  have hchange : ConcurrentChange editor renamer (bytes "/shared") later :=
    ⟨by decide, by decide, by decide⟩
  have hquiet : Undisturbed heads editor renamer (bytes "/shared") later := by
    rintro k - c w hmoves
    rcases hmoves.recorded with ⟨id, hc⟩ | ⟨id, hc⟩
    · simp [heads, hempty.1] at hc
    · simp [heads, hempty.2] at hc
  refine ⟨result, hrun, (hall _ _ (.inr ⟨rfl, rfl⟩) _ _ hchange hquiet).1 ?_⟩
  intro hover
  rcases hover with ⟨q, b, hpair, -, -, hlater, -, -⟩
  have hnewest : ∀ x ∈ renamer.entries.toList, x.2.type = .file → laterEntry later x.2 ≠ x.2 := by
    decide
  exact hnewest (q, b) ((OrdMap.mem_toList _ _ _).2 hpair.rightEntry.1) hpair.type.symm hlater

end RenamedAndEdited

end Macha
