import Macha.Metadata.MergeResult

/-!
# A merge seen from one of its heads

Which head is the left one follows from the hashes. What a merge makes of an
entry of one head is stated here for that head and the other, whichever way
round they are ordered.
-/

namespace Macha

def Sides (l r mine theirs : Side) : Prop :=
  (mine = l ∧ theirs = r) ∨ (mine = r ∧ theirs = l)

theorem Sides.symm {l r mine theirs : Side} (h : Sides l r mine theirs) :
    Sides l r theirs mine := by
  rcases h with ⟨hm, ht⟩ | ⟨hm, ht⟩
  · exact .inr ⟨ht, hm⟩
  · exact .inl ⟨ht, hm⟩

section

variable {l r mine theirs : Side}

theorem Sides.settledAt (h : Sides l r mine theirs) (p : ByteString) :
    settledAt l r p = settledAt mine theirs p := by
  rcases h with ⟨rfl, rfl⟩ | ⟨rfl, rfl⟩
  · rfl
  · exact settledAt_comm _ _ p

variable {p : ByteString} {a b : FsEntry}

theorem Sides.settleLog_mem (h : Sides l r mine theirs) (ha : mine.entries[p]? = some a)
    (hb : theirs.entries[p]? = some b) (hab : a ≠ b) {c : MetadataConflict}
    (hc : c ∈ settleLog mine theirs p a b false) :
    c ∈ settlePathsLog l r := by
  rcases h with ⟨rfl, rfl⟩ | ⟨rfl, rfl⟩
  · exact mem_settlePathsLog.2 ⟨p, a, b, ha, hb, hab, hc⟩
  · rw [settleLog_comm] at hc
    exact mem_settlePathsLog.2 ⟨p, b, a, hb, ha, hab.symm, hc⟩

theorem Sides.joined_of_not_pair (h : Sides l r mine theirs)
    (hmine : ∀ q a b, ¬JoinedPair mine theirs p q a b)
    (htheirs : ∀ q a b, ¬JoinedPair mine theirs q p a b) :
    (joinedEntries l r)[p]? = Macha.settledAt mine theirs p := by
  rw [joinedEntries_of_not_pair, h.settledAt]
  intro x y a b hpair
  rcases h with ⟨rfl, rfl⟩ | ⟨rfl, rfl⟩
  · constructor
    · rintro rfl
      exact hmine _ _ _ hpair
    · rintro rfl
      exact htheirs _ _ _ hpair
  · constructor
    · rintro rfl
      exact htheirs _ _ _ hpair.swap
    · rintro rfl
      exact hmine _ _ _ hpair.swap

theorem Sides.joined_of_both (h : Sides l r mine theirs) (ha : mine.entries[p]? = some a)
    (hb : theirs.entries[p]? = some b) :
    (joinedEntries l r)[p]? = Macha.settledAt mine theirs p := by
  apply h.joined_of_not_pair
  · intro q a' b' hpair
    simp [hpair.leftEntry.2.1] at hb
  · intro q a' b' hpair
    simp [hpair.rightEntry.2.1] at ha

/-- The other head's name is kept where this one's is not, unless the two name
dots are one. -/
theorem keepLeft_swap (l r : Side) (hname : a.provenance.name ≠ b.provenance.name) :
    keepLeft r l b a = !keepLeft l r a b := by
  unfold keepLeft
  cases nameSeen r l a <;> cases nameSeen l r b <;>
    rcases lt_or_gt_of_ne hname with hlt | hlt <;> simp [hlt, hlt.not_gt]

/-- The entry left of a file that had two names: its settled value under the
name kept. -/
def renamed (value : FsEntry) (name : MetadataDot) : FsEntry :=
  { value with provenance := { value.provenance with name := name } }

/-- What becomes of a file this head holds at `p` and the other at `q`. -/
structure PairOutcome (l r mine theirs : Side) (p q : ByteString) (a b : FsEntry)
    (kept dropped : ByteString) (name : MetadataDot) : Prop where
  which : (kept = p ∧ dropped = q ∧ name = a.provenance.name) ∨
    (kept = q ∧ dropped = p ∧ name = b.provenance.name)
  newer : a.provenance.name ≠ b.provenance.name → (kept = p ↔ keepLeft mine theirs a b)
  entry : (joinedEntries l r)[kept]? = some (renamed (settleValue mine theirs a b true).1 name)
  gone : (joinedEntries l r)[dropped]? = none
  log : ∀ c ∈ settleLog mine theirs kept a b true, c ∈ joinedLog l r

/-- Whether the name of a file in this head is the one kept: the other head has
not seen it and this one has seen the other's, else it is the later, and of two
names given at once that of the head with the greater hash. -/
def KeepsName (mine theirs : Side) (myHead theirHead : Hash256) (a b : FsEntry) : Prop :=
  if nameSeen theirs mine a ≠ nameSeen mine theirs b then nameSeen mine theirs b
  else b.provenance.name < a.provenance.name ∨
    (b.provenance.name = a.provenance.name ∧ theirHead < myHead)

/-- The two heads of a merge with their hashes, the lesser on the left. -/
def HashedSides (l r mine theirs : Side) (myHead theirHead : Hash256) : Prop :=
  (mine = l ∧ theirs = r ∧ myHead < theirHead) ∨ (mine = r ∧ theirs = l ∧ theirHead < myHead)

variable {myHead theirHead : Hash256}

theorem HashedSides.symm (h : HashedSides l r mine theirs myHead theirHead) :
    HashedSides l r theirs mine theirHead myHead := by
  rcases h with ⟨hm, ht, hlt⟩ | ⟨hm, ht, hlt⟩
  · exact .inr ⟨ht, hm, hlt⟩
  · exact .inl ⟨ht, hm, hlt⟩

theorem HashedSides.sides (h : HashedSides l r mine theirs myHead theirHead) :
    Sides l r mine theirs :=
  h.imp (fun h => ⟨h.1, h.2.1⟩) fun h => ⟨h.1, h.2.1⟩

section

variable (h : Sides l r mine theirs)

include h

theorem Sides.pairOutcome {p q : ByteString} (hpair : JoinedPair mine theirs p q a b) :
    ∃ kept dropped name, PairOutcome l r mine theirs p q a b kept dropped name := by
  have hne := hpair.ne
  rcases h with ⟨rfl, rfl⟩ | ⟨rfl, rfl⟩
  · have hkept := hpair.kept
    have hgone := hpair.dropped
    have hlog : ∀ c ∈ (joinOfPair mine theirs p q a b).log, c ∈ joinedLog mine theirs :=
      fun c hc => List.mem_append_right _ (mem_joinIdentitiesLog.2 ⟨p, q, a, b, hpair, hc⟩)
    cases hkeep : keepLeft mine theirs a b <;>
      simp only [joinOfPair, hkeep, Bool.false_eq_true, if_false, if_true] at hkept hgone hlog
    · exact ⟨q, p, b.provenance.name, .inr ⟨rfl, rfl, rfl⟩, fun _ => by simp [hkeep, hne.symm],
        hkept, hgone, hlog⟩
    · exact ⟨p, q, a.provenance.name, .inl ⟨rfl, rfl, rfl⟩, fun _ => by simp [hkeep],
        hkept, hgone, hlog⟩
  · have hkept := hpair.swap.kept
    have hgone := hpair.swap.dropped
    have hlog : ∀ c ∈ (joinOfPair theirs mine q p b a).log, c ∈ joinedLog theirs mine :=
      fun c hc => List.mem_append_right _ (mem_joinIdentitiesLog.2 ⟨q, p, b, a, hpair.swap, hc⟩)
    have hswap : a.provenance.name ≠ b.provenance.name →
        keepLeft theirs mine b a = !keepLeft mine theirs a b :=
      fun hname => keepLeft_swap mine theirs hname
    cases hkeep : keepLeft theirs mine b a <;>
      simp only [joinOfPair, hkeep, Bool.false_eq_true, if_false, if_true,
        settleValue_comm theirs mine b a, settleLog_comm theirs mine _ b a] at hkept hgone hlog
    · refine ⟨p, q, a.provenance.name, .inl ⟨rfl, rfl, rfl⟩, fun hname => ?_, hkept, hgone, hlog⟩
      have hk := hswap hname
      rw [hkeep] at hk
      simpa using hk
    · refine ⟨q, p, b.provenance.name, .inr ⟨rfl, rfl, rfl⟩, fun hname => ?_, hkept, hgone, hlog⟩
      have hk := hswap hname
      rw [hkeep] at hk
      simp [hne.symm] at hk ⊢
      exact hk

theorem Sides.directoryOf (hmine : isDirectoryAt mine.entries p = false) : directoryOf l r p =
      if isDirectoryAt theirs.entries p then theirs.entries[p]? else none := by
  unfold Macha.directoryOf
  rcases h with ⟨rfl, rfl⟩ | ⟨rfl, rfl⟩ <;> simp [hmine]

theorem Sides.directoryOf_source {d : FsEntry} (hd : Macha.directoryOf l r p = some d) :
    mine.entries[p]? = some d ∨ theirs.entries[p]? = some d := by
  unfold Macha.directoryOf at hd
  rcases h with ⟨rfl, rfl⟩ | ⟨rfl, rfl⟩ <;> split at hd
  · exact .inl hd
  · split at hd
    · exact .inr hd
    · simp at hd
  · exact .inr hd
  · split at hd
    · exact .inl hd
    · simp at hd

theorem Sides.joinIdentitiesLog_cases {c : MetadataConflict}
    (hc : c ∈ joinIdentitiesLog l r (settledOrigins l r) (settledEntries l r)) :
    ∃ p q a b kept, JoinedPair mine theirs p q a b ∧ c ∈ settleLog mine theirs kept a b true ∧
      (kept = p ∨ kept = q) ∧ (joinedEntries l r)[kept]?.isSome := by
  rcases mem_joinIdentitiesLog.1 hc with ⟨x, y, a, b, hpair, hc⟩
  have hkept := hpair.kept
  have hpath : (joinOfPair l r x y a b).kept = x ∨ (joinOfPair l r x y a b).kept = y :=
    (joinOfPair_paths l r x y a b).imp And.left And.left
  change c ∈ settleLog l r (joinOfPair l r x y a b).kept a b true at hc
  generalize (joinOfPair l r x y a b).kept = kept at hkept hpath hc
  rcases h with ⟨rfl, rfl⟩ | ⟨rfl, rfl⟩
  · exact ⟨x, y, a, b, kept, hpair, hc, hpath, by simp [hkept]⟩
  · rw [settleLog_comm] at hc
    exact ⟨y, x, b, a, kept, hpair.swap, hc, hpath.symm, by simp [hkept]⟩

end

theorem PairOutcome.kept_eq {p q kept dropped z : ByteString} {name : MetadataDot}
    (hout : PairOutcome l r mine theirs p q a b kept dropped name) (hz : z = p ∨ z = q)
    (hsome : (joinedEntries l r)[z]?.isSome) : kept = z := by
  have hgone := hout.gone
  rcases hout.which with ⟨rfl, rfl, -⟩ | ⟨rfl, rfl, -⟩ <;> rcases hz with rfl | rfl
  · rfl
  · simp [hgone] at hsome
  · simp [hgone] at hsome
  · rfl

theorem PairOutcome.name_eq {p q kept dropped : ByteString} {name : MetadataDot}
    (hout : PairOutcome l r mine theirs p q a b kept dropped name)
    (hpair : JoinedPair mine theirs p q a b) (hkept : kept = p) : name = a.provenance.name := by
  rcases hout.which with ⟨-, -, hname⟩ | ⟨hq, -, -⟩
  · exact hname
  · exact (hpair.ne (hkept.symm.trans hq)).elim

theorem keepLeft_iff_of_left (hlt : myHead < theirHead) (a b : FsEntry) :
    keepLeft mine theirs a b = true ↔ KeepsName mine theirs myHead theirHead a b := by
  unfold keepLeft KeepsName
  cases nameSeen theirs mine a <;> cases nameSeen mine theirs b <;> simp [hlt.not_gt]

theorem keepLeft_iff_of_right (hlt : theirHead < myHead) (a b : FsEntry) :
    keepLeft theirs mine b a = false ↔ KeepsName mine theirs myHead theirHead a b := by
  unfold keepLeft KeepsName
  cases nameSeen theirs mine a <;> cases nameSeen mine theirs b <;>
    simp [hlt, ← le_iff_lt_or_eq]

theorem HashedSides.kept_iff (h : HashedSides l r mine theirs myHead theirHead)
    {p q kept dropped : ByteString} {name : MetadataDot} (hpair : JoinedPair mine theirs p q a b)
    (hout : PairOutcome l r mine theirs p q a b kept dropped name) :
    kept = p ↔ KeepsName mine theirs myHead theirHead a b := by
  have hne := hpair.ne
  rcases h with ⟨rfl, rfl, hlt⟩ | ⟨rfl, rfl, hlt⟩
  · rw [← keepLeft_iff_of_left hlt]
    have hkept := hpair.kept
    cases hkeep : keepLeft mine theirs a b <;>
      simp only [joinOfPair, hkeep, Bool.false_eq_true, if_false, if_true] at hkept
    · simp [hout.kept_eq (.inr rfl) (by simp [hkept]), hne.symm]
    · simp [hout.kept_eq (.inl rfl) (by simp [hkept])]
  · rw [← keepLeft_iff_of_right hlt]
    have hkept := hpair.swap.kept
    cases hkeep : keepLeft theirs mine b a <;>
      simp only [joinOfPair, hkeep, Bool.false_eq_true, if_false, if_true] at hkept
    · simp [hout.kept_eq (.inl rfl) (by simp [hkept])]
    · simp [hout.kept_eq (.inr rfl) (by simp [hkept]), hne.symm]

end

def sideOf (s : MetadataSnapshot) : Side := ⟨s, s.entries⟩

instance (entries : NamespaceEntries) : Decidable (Closed entries) :=
  decidable_of_iff
    (isDirectoryAt entries rootPath ∧ ∀ x ∈ entries.toList, isDirectoryAt entries (parentPath x.1))
    ⟨fun ⟨hroot, hall⟩ => ⟨hroot, fun p hp => by
        rcases Option.isSome_iff_exists.1 hp with ⟨entry, hentry⟩
        exact hall (p, entry) ((OrdMap.mem_toList _ _ _).2 hentry)⟩,
      fun ⟨hroot, hparent⟩ => ⟨hroot, fun x hx => by
        have hx' := (OrdMap.mem_toList _ _ _).1 hx
        exact hparent x.1 (by simp [hx'])⟩⟩

theorem orderedSides_closed {left right : MetadataSnapshot} (hl : Closed left.entries)
    (hr : Closed right.entries) (leftHead rightHead : Hash256) :
    Closed (orderedSides left right leftHead rightHead).1.entries ∧
      Closed (orderedSides left right leftHead rightHead).2.entries := by
  unfold orderedSides
  split
  · exact ⟨hr, hl⟩
  · exact ⟨hl, hr⟩

theorem orderedSides_hashed (left right : MetadataSnapshot) {leftHead rightHead : Hash256}
    (hne : leftHead ≠ rightHead) :
    HashedSides (orderedSides left right leftHead rightHead).1
      (orderedSides left right leftHead rightHead).2 (sideOf left) (sideOf right)
      leftHead rightHead := by
  unfold orderedSides
  split
  · rename_i hlt
    exact .inr ⟨rfl, rfl, hlt⟩
  · rename_i hlt
    exact .inl ⟨rfl, rfl, lt_of_le_of_ne (not_lt.1 hlt) hne⟩

end Macha
