import Macha.Library.Collect
import Macha.Metadata.Types

/-!
# Packs of small objects

A `LocalStore` keeps small objects as records of append-only pack files: a put
carries the object, a touch affirms its age, a remove ends it. The index in memory
maps an object to its put record. Compaction copies the records the index names in
one pack into a new pack, and unlinks the old one.
-/

namespace Macha

open List OrdMap

inductive PackRecordType
  | put
  | remove
  | touch
deriving DecidableEq, Repr

/-- A record: its header, and for a put the object. -/
structure PackRecord where
  type : PackRecordType
  id : ObjectId
  touchedMs : Nat
  payload : ByteString
deriving DecidableEq, Repr

def packHeaderSize : Nat := 93 + 32

def PackRecord.size (r : PackRecord) : Nat := packHeaderSize + r.payload.length

theorem PackRecord.size_pos (r : PackRecord) : 0 < r.size := by
  unfold size packHeaderSize
  omega

def recordsSize (records : List PackRecord) : Nat := (records.map PackRecord.size).sum

/-- A pack file; packs are named by their sequence. -/
structure Pack where
  sequence : Nat
  records : List PackRecord
deriving DecidableEq, Repr

def Pack.size (p : Pack) : Nat := recordsSize p.records

/-- An entry of the index: where the put record begins, and when the object was
last affirmed. -/
structure PackEntry where
  file : Nat
  offset : Nat
  recordSize : Nat
  touchedMs : Nat
deriving DecidableEq, Repr

abbrev PackIndex := OrdMap ObjectId PackEntry

def recordAt : List PackRecord → Nat → Option PackRecord
  | [], _ => none
  | r :: rs, offset =>
    if offset = 0 then some r
    else if offset < r.size then none
    else recordAt rs (offset - r.size)

def packAt (packs : List Pack) (sequence : Nat) : Option Pack :=
  packs.find? fun p => p.sequence = sequence

def readRecord (packs : List Pack) (entry : PackEntry) : Option PackRecord :=
  (packAt packs entry.file).bind fun p => recordAt p.records entry.offset

/-- `get_packed_locked`: the object, if the entry names its put record and the
bytes are the object's. -/
def getPacked (objectId : ByteString → ObjectId) (packs : List Pack) (id : ObjectId)
    (entry : PackEntry) : Option ByteString := do
  let record ← readRecord packs entry
  guard (record.type = .put ∧ record.id = id ∧ objectId record.payload = id)
  some record.payload

/-- `files_.append`; a pack that is not there is created. -/
def appendTo (packs : List Pack) (sequence : Nat) (record : PackRecord) : List Pack :=
  match packs with
  | [] => [⟨sequence, [record]⟩]
  | p :: ps =>
    if p.sequence = sequence then { p with records := p.records ++ [record] } :: ps
    else p :: appendTo ps sequence record

/-- The packs of a store, in the order of their sequences, and its index. -/
structure PackStore where
  packs : List Pack := []
  index : PackIndex := ∅
  active : Option Nat := none
  activeSize : Nat := 0
  nextSequence : Nat := 1
  deadBytes : Nat := 0

namespace PackStore

/-- `select_active_pack_locked`. -/
def selectActive (store : PackStore) (targetSize size : Nat) : PackStore :=
  if store.active = none ∨ store.activeSize ≠ 0 ∧ targetSize < store.activeSize + size then
    { store with
      active := some store.nextSequence
      activeSize := 0
      nextSequence := store.nextSequence + 1 }
  else store

/-- `append_pack_record_locked` under the pack I/O lock. -/
def appendRecord (store : PackStore) (targetSize : Nat) (record : PackRecord) :
    PackStore × PackEntry :=
  let store := store.selectActive targetSize record.size
  let sequence := store.active.getD 0
  ({ store with
      packs := appendTo store.packs sequence record
      activeSize := store.activeSize + record.size },
    { file := sequence
      offset := store.activeSize
      recordSize := record.size
      touchedMs := record.touchedMs })

/-- What the index makes of a record once it is written. -/
def indexRecord (store : PackStore) (record : PackRecord) (entry : PackEntry) : PackStore :=
  match record.type with
  | .put =>
    { store with
      index := store.index.insert record.id entry
      deadBytes := store.deadBytes + (store.index[record.id]?.map (·.recordSize)).getD 0 }
  | .touch =>
    match store.index[record.id]? with
    | some old =>
      { store with
        index := store.index.insert record.id { old with touchedMs := record.touchedMs }
        deadBytes := store.deadBytes + record.size }
    | none => store
  | .remove =>
    match store.index[record.id]? with
    | some old =>
      { store with
        index := store.index.erase record.id
        deadBytes := store.deadBytes + (old.recordSize + record.size) }
    | none => store

/-- The record a packed put writes: a touch if the object is here, else a put. -/
def putRecord (objectId : ByteString → ObjectId) (store : PackStore) (id : ObjectId)
    (data : ByteString) (now : Nat) : PackRecord :=
  match store.index[id]? with
  | some entry =>
    if getPacked objectId store.packs id entry = some data then ⟨.touch, id, now, []⟩
    else ⟨.put, id, now, data⟩
  | none => ⟨.put, id, now, data⟩

theorem putRecord_spec (objectId : ByteString → ObjectId) (store : PackStore) (id : ObjectId)
    (data : ByteString) (now : Nat) :
    (store.putRecord objectId id data now).id = id ∧
      ((store.putRecord objectId id data now).type = .put →
        (store.putRecord objectId id data now).payload = data) := by
  unfold putRecord
  split
  · split
    · exact ⟨rfl, nofun⟩
    · exact ⟨rfl, fun _ => rfl⟩
  · exact ⟨rfl, fun _ => rfl⟩

def liveBytes (index : PackIndex) (sequence : Nat) : Nat :=
  ((index.toList.filter fun item => item.2.file = sequence).map (·.2.recordSize)).sum

def packDead (index : PackIndex) (p : Pack) : Nat := p.size - liveBytes index p.sequence

/-- The pack compaction picks: the one with the most dead bytes, and of those the
largest. -/
def IsVictim (store : PackStore) (victim : Pack) : Prop :=
  victim ∈ store.packs ∧ packDead store.index victim ≠ 0 ∧
    ∀ p ∈ store.packs, packDead store.index p < packDead store.index victim ∨
      packDead store.index p = packDead store.index victim ∧ p.size ≤ victim.size

instance (store : PackStore) (victim : Pack) : Decidable (store.IsVictim victim) := by
  unfold IsVictim
  infer_instance

def victimEntries (index : PackIndex) (sequence : Nat) : List (ObjectId × PackEntry) :=
  index.toList.filter fun item => item.2.file = sequence

def copyRecords (packs : List Pack) (entries : List (ObjectId × PackEntry)) :
    Option (List PackRecord) :=
  entries.mapM fun item => readRecord packs item.2

def placeEntries (sequence : Nat) : Nat → List (ObjectId × PackEntry) → List (ObjectId × PackEntry)
  | _, [] => []
  | offset, (id, entry) :: rest =>
    (id, { entry with file := sequence, offset }) ::
      placeEntries sequence (offset + entry.recordSize) rest

def totalDead (store : PackStore) : Nat :=
  (store.packs.map fun p => packDead store.index p).sum

/-- The index switches to the copies, and later records follow them if they fit. -/
def switchTo (store : PackStore) (targetSize : Nat) (replacement : Option Nat)
    (rebuilt : List (ObjectId × PackEntry)) (replacementSize : Nat) : PackStore :=
  { store with
    index := rebuilt.foldl (fun index item => index.insert item.1 item.2) store.index
    active := if replacementSize < targetSize then replacement else none
    activeSize :=
      if replacement.isSome ∧ replacementSize < targetSize then replacementSize else 0 }

/-- The replacement pack of a victim, if the index names anything in it: the store
with it, the entries of the copies, its name and its size. -/
def copyVictim (store : PackStore) (snapshot : PackIndex) (victim : Nat) :
    Option (PackStore × List (ObjectId × PackEntry) × Option Nat × Nat) :=
  let entries := victimEntries snapshot victim
  if entries.isEmpty then some (store, [], none, 0)
  else do
    let copies ← copyRecords store.packs entries
    let sequence := store.nextSequence
    some ({ store with
        packs := store.packs ++ [⟨sequence, copies⟩]
        nextSequence := sequence + 1 },
      placeEntries sequence 0 entries, some sequence, (entries.map (·.2.recordSize)).sum)

/-- The old pack goes, unless `unlink` fails. -/
def unlinkPack (store : PackStore) (sequence : Nat) (unlinked : Bool) : PackStore :=
  if unlinked then { store with packs := store.packs.filter fun p => p.sequence ≠ sequence }
  else store

end PackStore

/-! ## What an append keeps -/

/-- The entry names a put record of the object, with the object in it. -/
def Holds (objectId : ByteString → ObjectId) (packs : List Pack) (id : ObjectId)
    (entry : PackEntry) : Prop :=
  ∃ record, readRecord packs entry = some record ∧ record.type = .put ∧ record.id = id ∧
    objectId record.payload = id ∧ record.size = entry.recordSize

section

variable {objectId : ByteString → ObjectId} {packs : List Pack} {id : ObjectId}
  {entry : PackEntry}

theorem Holds.getPacked (h : Holds objectId packs id entry) :
    ∃ data, getPacked objectId packs id entry = some data ∧ objectId data = id := by
  obtain ⟨record, hread, htype, hid, hpayload, -⟩ := h
  refine ⟨record.payload, ?_, hpayload⟩
  unfold Macha.getPacked
  rw [hread, Option.bind_eq_bind, Option.bind_some, guard_of ⟨htype, hid, hpayload⟩]
  rfl

theorem recordAt_append {records more : List PackRecord} {offset : Nat} {r : PackRecord}
    (h : recordAt records offset = some r) : recordAt (records ++ more) offset = some r := by
  induction records generalizing offset with
  | nil => cases h
  | cons first rest ih =>
    rw [cons_append]
    unfold recordAt at h ⊢
    by_cases hzero : offset = 0
    · rw [if_pos hzero] at h ⊢
      exact h
    · rw [if_neg hzero] at h ⊢
      by_cases hinside : offset < first.size
      · rw [if_pos hinside] at h
        cases h
      · rw [if_neg hinside] at h ⊢
        exact ih h

theorem recordAt_size (records more : List PackRecord) (r : PackRecord) :
    recordAt (records ++ r :: more) (recordsSize records) = some r := by
  induction records with
  | nil => rfl
  | cons first rest ih =>
    have hpos := first.size_pos
    have hsize : recordsSize (first :: rest) = first.size + recordsSize rest := by
      unfold recordsSize
      rw [map_cons, sum_cons]
    rw [cons_append, hsize]
    unfold recordAt
    rw [if_neg (by omega), if_neg (by omega), Nat.add_sub_cancel_left]
    exact ih

/-- The packs are in the order of their names, all below the next one. -/
structure PacksNamed (packs : List Pack) (nextSequence : Nat) : Prop where
  ordered : (packs.map (·.sequence)).Pairwise (· < ·)
  below : ∀ p ∈ packs, p.sequence < nextSequence

variable {sequence nextSequence : Nat}

theorem packAt_eq_some {p : Pack} (h : packAt packs sequence = some p) :
    p ∈ packs ∧ p.sequence = sequence := by
  have hname := find?_some h
  exact ⟨mem_of_find?_eq_some h, of_decide_eq_true hname⟩

theorem PacksNamed.packAt_mem (named : PacksNamed packs nextSequence) {p : Pack} (hp : p ∈ packs) :
    packAt packs p.sequence = some p := by
  have hordered := named.ordered
  clear named
  unfold packAt
  induction packs with
  | nil => cases hp
  | cons first rest ih =>
    rw [map_cons, pairwise_cons] at hordered
    rw [find?_cons]
    rcases mem_cons.1 hp with rfl | hp
    · simp
    · have hlt := hordered.1 p.sequence (List.mem_map_of_mem hp)
      rw [decide_eq_false (by omega)]
      exact ih hp hordered.2

theorem packAt_eq_none (named : PacksNamed packs nextSequence) (h : nextSequence ≤ sequence) :
    packAt packs sequence = none := by
  cases hp : packAt packs sequence with
  | none => rfl
  | some p =>
    obtain ⟨hmem, rfl⟩ := packAt_eq_some hp
    have hlt := named.below p hmem
    omega

theorem packAt_appendTo (packs : List Pack) (sequence other : Nat) (record : PackRecord) :
    packAt (appendTo packs sequence record) other =
      if other = sequence then
        some ⟨sequence, ((packAt packs sequence).map (·.records)).getD [] ++ [record]⟩
      else packAt packs other := by
  unfold packAt
  induction packs with
  | nil =>
    show find? _ [Pack.mk sequence [record]] = _
    by_cases h : other = sequence
    · subst h
      simp
    · simp [h, Ne.symm h]
  | cons p ps ih =>
    unfold appendTo
    by_cases hp : p.sequence = sequence
    · subst hp
      by_cases h : other = p.sequence
      · subst h
        simp
      · simp [h, Ne.symm h]
    · rw [if_neg hp, find?_cons, find?_cons, find?_cons]
      by_cases h : other = sequence
      · subst h
        simp only [hp, decide_false]
        rw [ih, if_pos rfl, if_pos trivial]
      · by_cases hother : p.sequence = other
        · simp [hother, h]
        · rw [ih, if_neg h, if_neg h]

theorem Holds.appendTo (h : Holds objectId packs id entry) (sequence : Nat)
    (record : PackRecord) : Holds objectId (appendTo packs sequence record) id entry := by
  obtain ⟨found, hread, hrest⟩ := h
  refine ⟨found, ?_, hrest⟩
  unfold readRecord at hread ⊢
  obtain ⟨p, hp, hat⟩ := Option.bind_eq_some_iff.1 hread
  rw [packAt_appendTo]
  split
  · next hfile =>
    rw [hfile] at hp
    rw [hp]
    exact recordAt_append hat
  · rw [hp]
    exact hat

theorem sequences_appendTo (packs : List Pack) (sequence : Nat) (record : PackRecord) :
    (appendTo packs sequence record).map (·.sequence) =
      if (packAt packs sequence).isSome then packs.map (·.sequence)
      else packs.map (·.sequence) ++ [sequence] := by
  unfold packAt
  induction packs with
  | nil => rfl
  | cons p ps ih =>
    unfold appendTo
    rw [find?_cons]
    by_cases hp : p.sequence = sequence
    · simp [hp]
    · simp only [hp, decide_false, if_false, map_cons]
      rw [ih]
      split <;> rfl

theorem PacksNamed.appendTo {next next' sequence : Nat} (named : PacksNamed packs next)
    (hnext : next ≤ next') (hsequence : sequence < next')
    (hplace : (packAt packs sequence).isSome = true ∨ next ≤ sequence) (record : PackRecord) :
    PacksNamed (appendTo packs sequence record) next' := by
  have hsequences := sequences_appendTo packs sequence record
  constructor
  · rw [hsequences]
    split
    · exact named.ordered
    · next habsent =>
      rcases hplace with hplace | hplace
      · exact absurd hplace habsent
      · refine pairwise_append.2 ⟨named.ordered, pairwise_singleton _ _, ?_⟩
        intro a ha b hb
        obtain ⟨p, hp, rfl⟩ := List.mem_map.1 ha
        rw [mem_singleton.1 hb]
        exact Nat.lt_of_lt_of_le (named.below p hp) hplace
  · intro p hp
    have hmem : p.sequence ∈ (Macha.appendTo packs sequence record).map (·.sequence) :=
      List.mem_map_of_mem hp
    have hold : ∀ s ∈ packs.map (·.sequence), s < next' := by
      intro s hs
      obtain ⟨q, hq, rfl⟩ := List.mem_map.1 hs
      exact Nat.lt_of_lt_of_le (named.below q hq) hnext
    rw [hsequences] at hmem
    split at hmem
    · exact hold _ hmem
    · rcases mem_append.1 hmem with hmem | hmem
      · exact hold _ hmem
      · rw [mem_singleton.1 hmem]
        exact hsequence

end

/-! ## A store that can be appended to -/

/-- Names are in order, and the active pack is there and as long as it is said to be. -/
structure PackStore.Sound (store : PackStore) : Prop where
  named : PacksNamed store.packs store.nextSequence
  active : ∀ a, store.active = some a →
    ∃ p, packAt store.packs a = some p ∧ store.activeSize = p.size

theorem recordsSize_append (a b : List PackRecord) :
    recordsSize (a ++ b) = recordsSize a + recordsSize b := by
  unfold recordsSize
  rw [map_append, sum_append]

namespace PackStore

variable {store : PackStore} {targetSize : Nat} {record : PackRecord}

/-- The store is unchanged but for the pack the record went to, and the entry says
where it is. -/
structure Appended (store : PackStore) (record : PackRecord) (next : PackStore)
    (entry : PackEntry) : Prop where
  packs : next.packs = appendTo store.packs entry.file record
  index : next.index = store.index
  deadBytes : next.deadBytes = store.deadBytes
  nextSequence : store.nextSequence ≤ next.nextSequence
  active : next.active = some entry.file
  placed : (packAt store.packs entry.file).isSome = true ∨
    packAt store.packs entry.file = none ∧ store.nextSequence ≤ entry.file
  offset : entry.offset = ((packAt store.packs entry.file).map Pack.size).getD 0
  read : readRecord next.packs entry = some record
  recordSize : entry.recordSize = record.size
  touchedMs : entry.touchedMs = record.touchedMs
  sound : next.Sound

theorem Sound.appendRecord (sound : store.Sound) (targetSize : Nat) (record : PackRecord) :
    Appended store record (store.appendRecord targetSize record).1
      (store.appendRecord targetSize record).2 := by
  unfold PackStore.appendRecord selectActive
  by_cases hfresh : store.active = none ∨
      store.activeSize ≠ 0 ∧ targetSize < store.activeSize + record.size
  · have hnone := packAt_eq_none sound.named (Nat.le_refl store.nextSequence)
    have hnew : packAt (appendTo store.packs store.nextSequence record) store.nextSequence =
        some ⟨store.nextSequence, [record]⟩ := by
      rw [packAt_appendTo, if_pos rfl, hnone]
      rfl
    simp only [if_pos hfresh, Option.getD_some]
    refine ⟨rfl, rfl, rfl, Nat.le_succ _, rfl, .inr ⟨hnone, Nat.le_refl _⟩, ?_, ?_, rfl, rfl,
      ?_, ?_⟩
    · rw [hnone]
      rfl
    · unfold readRecord
      rw [hnew]
      rfl
    · exact sound.named.appendTo (Nat.le_succ _) (Nat.lt_succ_self _) (.inr (Nat.le_refl _)) record
    · intro a ha
      cases ha
      refine ⟨_, hnew, ?_⟩
      show 0 + record.size = recordsSize [record]
      unfold recordsSize
      simp
  · simp only [if_neg hfresh]
    cases hactive : store.active with
    | none => exact absurd (.inl hactive) hfresh
    | some a =>
      obtain ⟨p, hp, hsize⟩ := sound.active a hactive
      obtain ⟨hmem, hsequence⟩ := packAt_eq_some hp
      have hgrown : packAt (appendTo store.packs a record) a = some ⟨a, p.records ++ [record]⟩ := by
        rw [packAt_appendTo, if_pos rfl, hp]
        rfl
      have hsome : (packAt store.packs a).isSome = true := by rw [hp]; rfl
      simp only [Option.getD_some]
      refine ⟨rfl, rfl, rfl, Nat.le_refl _, rfl, .inl hsome, ?_, ?_, rfl, rfl, ?_, ?_⟩
      · rw [hp, hsize]
        rfl
      · unfold readRecord
        rw [hgrown, hsize]
        exact recordAt_size p.records [] record
      · refine sound.named.appendTo (Nat.le_refl _) ?_ (.inl hsome) record
        rw [← hsequence]
        exact sound.named.below p hmem
      · intro a' ha'
        cases ha'
        refine ⟨_, hgrown, ?_⟩
        show store.activeSize + record.size = recordsSize (p.records ++ [record])
        rw [recordsSize_append, hsize]
        rfl

end PackStore

/-! ## What compaction keeps -/

section

variable {objectId : ByteString → ObjectId} {packs : List Pack} {id : ObjectId}
  {entry : PackEntry}

open PackStore

variable {sequence victim next : Nat}

theorem packAt_append {p : Pack} (h : packAt packs sequence = some p) (more : List Pack) :
    packAt (packs ++ more) sequence = some p := by
  unfold packAt at h ⊢
  rw [find?_append, h]
  rfl

theorem packAt_filter (h : sequence ≠ victim) :
    packAt (packs.filter fun p => p.sequence ≠ victim) sequence = packAt packs sequence := by
  unfold packAt
  rw [find?_filter]
  congr 1
  funext p
  by_cases hp : p.sequence = sequence
  · simp [hp, h]
  · simp [hp]

section

variable (h : Holds objectId packs id entry)

include h

theorem Holds.of_packAt {packs' : List Pack}
    (hpack : ∀ p, packAt packs entry.file = some p → packAt packs' entry.file = some p) :
    Holds objectId packs' id entry := by
  obtain ⟨record, hread, hrest⟩ := h
  refine ⟨record, ?_, hrest⟩
  unfold readRecord at hread ⊢
  obtain ⟨p, hp, hat⟩ := Option.bind_eq_some_iff.1 hread
  rw [hpack p hp]
  exact hat

theorem Holds.congr {other : PackEntry} (hfile : other.file = entry.file)
    (hoffset : other.offset = entry.offset) (hsize : other.recordSize = entry.recordSize) :
    Holds objectId packs id other := by
  obtain ⟨record, hread, htype, hid, hpayload, hrecord⟩ := h
  refine ⟨record, ?_, htype, hid, hpayload, hrecord.trans hsize.symm⟩
  unfold readRecord at hread ⊢
  rw [hfile, hoffset]
  exact hread

theorem Holds.snoc (p : Pack) : Holds objectId (packs ++ [p]) id entry :=
  h.of_packAt fun _ hp => packAt_append hp [p]

theorem Holds.unlink (hother : entry.file ≠ victim) :
    Holds objectId (packs.filter fun p => p.sequence ≠ victim) id entry :=
  h.of_packAt fun _ hp => (packAt_filter hother).trans hp

end

theorem placeEntries_keys (sequence offset : Nat) (entries : List (ObjectId × PackEntry)) :
    (placeEntries sequence offset entries).map (·.1) = entries.map (·.1) := by
  induction entries generalizing offset with
  | nil => rfl
  | cons item entries ih =>
    unfold placeEntries
    rw [map_cons, map_cons, ih]

variable {entries rebuilt : List (ObjectId × PackEntry)} {copies : List PackRecord}
  {snapshot : PackIndex}

theorem exists_placed (sequence offset : Nat) (h : (id, entry) ∈ entries) :
    ∃ placed, (id, placed) ∈ placeEntries sequence offset entries := by
  have hmem : id ∈ (placeEntries sequence offset entries).map (·.1) := by
    rw [placeEntries_keys]
    exact List.mem_map_of_mem h
  obtain ⟨⟨key, placed⟩, hplaced, rfl⟩ := List.mem_map.1 hmem
  exact ⟨placed, hplaced⟩

theorem copyRecords_cons {item : ObjectId × PackEntry}
    (hcopy : copyRecords packs (item :: entries) = some copies) : ∃ record rest,
      readRecord packs item.2 = some record ∧ copyRecords packs entries = some rest ∧
        copies = record :: rest := by
  unfold copyRecords at hcopy
  rw [mapM_cons] at hcopy
  obtain ⟨record, hread, hcopy⟩ := Option.bind_eq_some_iff.1 hcopy
  obtain ⟨rest, hrest, hcopy⟩ := Option.bind_eq_some_iff.1 hcopy
  exact ⟨record, rest, hread, hrest, (Option.some.inj hcopy).symm⟩

section

variable (hheld : ∀ item ∈ entries, Holds objectId packs item.1 item.2)

include hheld

theorem placeEntries_read (hcopy : copyRecords packs entries = some copies) (sequence : Nat)
    (front : List PackRecord) {placed : ObjectId × PackEntry}
    (hplaced : placed ∈ placeEntries sequence (recordsSize front) entries) :
    ∃ old offset, (placed.1, old) ∈ entries ∧
      placed.2 = { old with file := sequence, offset } ∧ ∃ record,
        readRecord packs old = some record ∧ recordAt (front ++ copies) offset = some record := by
  induction entries generalizing copies front with
  | nil => cases hplaced
  | cons item entries ih =>
    obtain ⟨key, old⟩ := item
    obtain ⟨record, rest, hread, hrest, rfl⟩ := copyRecords_cons hcopy
    obtain ⟨found, hfound, -, -, -, hsize⟩ := hheld (key, old) mem_cons_self
    have hsame : found = record := Option.some_inj.1 (hfound.symm.trans hread)
    subst hsame
    rcases mem_cons.1 hplaced with rfl | hplaced
    · exact ⟨old, recordsSize front, mem_cons_self, rfl, found, hread,
        recordAt_size front rest found⟩
    · have hoffset : recordsSize front + old.recordSize = recordsSize (front ++ [found]) := by
        rw [recordsSize_append, ← hsize]
        rfl
      rw [hoffset] at hplaced
      obtain ⟨old', offset, hmem, heq, record', hread', hat⟩ :=
        ih (fun item hitem => hheld item (mem_cons_of_mem _ hitem)) hrest _ hplaced
      refine ⟨old', offset, mem_cons_of_mem _ hmem, heq, record', hread', ?_⟩
      rw [append_assoc] at hat
      exact hat

theorem recordsSize_copies (hcopy : copyRecords packs entries = some copies) :
    recordsSize copies = (entries.map (·.2.recordSize)).sum := by
  induction entries generalizing copies with
  | nil =>
    cases hcopy
    rfl
  | cons item entries ih =>
    obtain ⟨record, rest, hread, hrest, rfl⟩ := copyRecords_cons hcopy
    obtain ⟨found, hfound, -, -, -, hsize⟩ := hheld item mem_cons_self
    have hsame : found = record := Option.some_inj.1 (hfound.symm.trans hread)
    rw [map_cons, sum_cons, ← hsize, hsame,
      ← ih (fun item hitem => hheld item (mem_cons_of_mem _ hitem)) hrest]
    unfold recordsSize
    rw [map_cons, sum_cons]

end

section

variable (named : PacksNamed packs next)

include named

theorem PacksNamed.snoc (records : List PackRecord) :
    PacksNamed (packs ++ [⟨next, records⟩]) (next + 1) := by
  constructor
  · rw [map_append]
    refine pairwise_append.2 ⟨named.ordered, pairwise_singleton _ _, ?_⟩
    intro a ha b hb
    obtain ⟨p, hp, rfl⟩ := List.mem_map.1 ha
    rw [mem_singleton.1 hb]
    exact named.below p hp
  · intro p hp
    rcases mem_append.1 hp with hp | hp
    · exact Nat.lt_succ_of_lt (named.below p hp)
    · rw [mem_singleton.1 hp]
      exact Nat.lt_succ_self _

theorem packAt_snoc (records : List PackRecord) :
    packAt (packs ++ [⟨next, records⟩]) next = some ⟨next, records⟩ :=
  (named.snoc records).packAt_mem (mem_append_right _ mem_cons_self)

theorem PacksNamed.filter (victim : Nat) :
    PacksNamed (packs.filter fun p => p.sequence ≠ victim) next :=
  ⟨named.ordered.sublist (filter_sublist.map _), fun p hp => named.below p (mem_filter.1 hp).1⟩

omit named in
theorem PacksNamed.mono {next next' : Nat} (named : PacksNamed packs next) (h : next ≤ next') :
    PacksNamed packs next' :=
  ⟨named.ordered, fun p hp => Nat.lt_of_lt_of_le (named.below p hp) h⟩

theorem holds_placed (hheld : ∀ item ∈ entries, Holds objectId packs item.1 item.2)
    (hcopy : copyRecords packs entries = some copies) {placed : ObjectId × PackEntry}
    (hplaced : placed ∈ placeEntries next 0 entries) :
    Holds objectId (packs ++ [⟨next, copies⟩]) placed.1 placed.2 := by
  obtain ⟨old, offset, hmem, heq, record, hread, hat⟩ :=
    placeEntries_read hheld hcopy next [] hplaced
  obtain ⟨found, hfound, htype, hid, hpayload, hsize⟩ := hheld _ hmem
  have hsame : found = record := Option.some_inj.1 (hfound.symm.trans hread)
  subst hsame
  refine ⟨found, ?_, htype, hid, hpayload, ?_⟩
  · rw [heq]
    unfold readRecord
    rw [packAt_snoc named]
    exact hat
  · rw [heq]
    exact hsize

end

theorem victimEntries_distinct (index : PackIndex) (sequence : Nat) :
    (victimEntries index sequence).Pairwise fun x y => x.1 ≠ y.1 :=
  List.Pairwise.filter _ (toList_pairwise_ne index)

theorem mem_victimEntries {index : PackIndex} : (id, entry) ∈ victimEntries index sequence ↔
      index[id]? = some entry ∧ entry.file = sequence := by
  unfold victimEntries
  rw [mem_filter, OrdMap.mem_toList, decide_eq_true_iff]

theorem getElem?_switchTo (hdistinct : rebuilt.Pairwise fun x y => x.1 ≠ y.1) (store : PackStore)
    (targetSize : Nat) (replacement : Option Nat) (replacementSize : Nat) (id : ObjectId) :
    (∀ placed, (id, placed) ∈ rebuilt →
        (store.switchTo targetSize replacement rebuilt replacementSize).index[id]? = some placed) ∧
      ((∀ placed, (id, placed) ∉ rebuilt) →
        (store.switchTo targetSize replacement rebuilt replacementSize).index[id]? =
          store.index[id]?) :=
  getElem?_foldl_distinct (g := fun index item => index.insert item.1 item.2)
    (f := fun _ placed _ => some placed) (fun _ _ => getElem?_insert_self _ _ _)
    (fun _ _ _ hne => getElem?_insert_of_ne _ _ hne) hdistinct store.index id

theorem placeEntries_distinct (hdistinct : entries.Pairwise fun x y => x.1 ≠ y.1)
    (sequence offset : Nat) :
    (placeEntries sequence offset entries).Pairwise fun x y => x.1 ≠ y.1 := by
  have hkeys : (entries.map (·.1)).Pairwise (· ≠ ·) := pairwise_map.2 hdistinct
  rw [← placeEntries_keys sequence offset] at hkeys
  exact pairwise_map.1 hkeys

theorem copyVictim_eq_none {store : PackStore} (hempty : victimEntries snapshot victim = []) :
    store.copyVictim snapshot victim = some (store, [], none, 0) := by
  unfold copyVictim
  rw [hempty]
  rfl

theorem copyVictim_eq_some {store next : PackStore} {victim size : Nat} {replacement : Option Nat}
    (hsome : victimEntries snapshot victim ≠ [])
    (h : store.copyVictim snapshot victim = some (next, rebuilt, replacement, size)) :
    ∃ copies, copyRecords store.packs (victimEntries snapshot victim) = some copies ∧
      next = { store with
        packs := store.packs ++ [⟨store.nextSequence, copies⟩]
        nextSequence := store.nextSequence + 1 } ∧
      rebuilt = placeEntries store.nextSequence 0 (victimEntries snapshot victim) ∧
      replacement = some store.nextSequence ∧
      size = ((victimEntries snapshot victim).map (·.2.recordSize)).sum := by
  unfold copyVictim at h
  rw [if_neg fun hempty => hsome (List.isEmpty_iff.1 hempty)] at h
  obtain ⟨copies, hcopy, h⟩ := Option.bind_eq_some_iff.1 h
  cases h
  exact ⟨copies, hcopy, rfl, rfl, rfl, rfl⟩

end

end Macha
